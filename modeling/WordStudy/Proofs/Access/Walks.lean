import WordStudy.Graph.Vocabulary
import WordStudy.Proofs.Access.Patterns
import WordStudy.Proofs.Access.Racks
import WordStudy.Proofs.Graph.Capitals

/-!
# Checked walks over a graph

A walk carries the bits of every pattern and the tiles of every rack along the edges of a graph. What
was read from texts fits into the words and tables, and **edges with capital letters** are all that
racks are asked for, so that a walk makes no fault and finds what the query asks for.
-/

namespace WordStudy

/-- The patterns fit into words of positions, and the racks into tables. -/
structure GraphQuery.FitsTables (q : GraphQuery) : Prop where
  patterns : ∀ p ∈ q.patterns, p.tokens.length ≤ Pattern.maxTokens
  excludedPatterns : ∀ p ∈ q.excludedPatterns, p.tokens.length ≤ Pattern.maxTokens
  racks : ∀ r ∈ q.racks, r.1.FitsTables
  excludedRacks : ∀ r ∈ q.excludedRacks, r.1.FitsTables

namespace Checked

/-! ## §1 Queries of conditions -/

/-- Add a pattern, `none` if its text is malformed. -/
def addPattern (q : GraphQuery) (text : String) (negated : Bool) : Checked (Option GraphQuery) := do
  let pattern ← readPattern text
  return pattern.map fun p =>
    if negated then { q with excludedPatterns := q.excludedPatterns ++ [p] }
    else { q with patterns := q.patterns ++ [p] }

/-- Add a rack, `none` if its text is malformed. -/
def addRack (q : GraphQuery) (letters : String) (mode : RackMode) (negated : Bool) :
    Checked (Option GraphQuery) := do
  let rack ← readRack letters
  return rack.map fun r =>
    if negated then { q with excludedRacks := q.excludedRacks ++ [(r, mode)] }
    else { q with racks := q.racks ++ [(r, mode)] }

/-- Add a condition, `none` if its text is malformed. -/
def addCondition (q : GraphQuery) : Condition → Checked (Option GraphQuery)
  | .pattern text negated => addPattern q text negated
  | .anagram letters negated => addRack q letters .anagram negated
  | .subanagram letters negated => addRack q letters .subanagram negated
  | .consist letters lengths negated =>
    addRack q letters (.consist (max lengths.least 1) lengths.greatest) negated
  | .length r => return some (q.addLengths r)
  | _ => return some q

/-- The query of a list of conditions. -/
def queryOf (conditions : List Condition) : Checked (Option GraphQuery) :=
  foldOption addCondition .any conditions

/-! ## §2 Walks -/

/-- Where the matchers stand, as bits and tiles. -/
structure WalkState where
  depth : Nat
  patterns : List LiveWord
  racks : List (List TileWord)

/-- Where the matchers stand before the first letter. -/
def startWalk (q : GraphQuery) : Checked WalkState := do
  let patterns ← q.patterns.mapM startPattern
  let racks ← q.racks.mapM fun rack => do
    let tiles ← startTiles rack.1
    return [tiles]
  return ⟨0, patterns, racks⟩

/-- One more letter for each matcher, `none` if one of them gives up. -/
def advance {α σ : Type} (step : α → σ → Checked (Option σ)) : List α → List σ →
    Checked (Option (List σ))
  | a :: as, s :: states => do
    match ← step a s with
    | none => return none
    | some next => do
      let others ← advance step as states
      return others.map (next :: ·)
  | _, _ => return some []

/-- One more letter for a pattern, `none` if no position is live. -/
def advancePattern (b : UInt8) (p : Pattern) (live : LiveWord) : Checked (Option LiveWord) := do
  let next ← stepPattern p live b
  return if next = 0 then none else some next

/-- One more letter for a rack, `none` if there is no way. -/
def advanceRack (b : UInt8) (rack : Rack × RackMode) (ways : List TileWord) :
    Checked (Option (List TileWord)) := do
  let next ← stepRack rack.1 ways b
  return if next.isEmpty then none else some next

/-- The state behind one more letter, `none` if the limit is reached or a matcher gives up. -/
def stepWalk (q : GraphQuery) (s : WalkState) (b : UInt8) : Checked (Option WalkState) := do
  if q.depthLimit.any (· ≤ s.depth) then return none
  else
    match ← advance (advancePattern b) q.patterns s.patterns with
    | none => return none
    | some patterns => do
      let racks ← advance (advanceRack b) q.racks s.racks
      return racks.map fun racks => ⟨s.depth + 1, patterns, racks⟩

/-- The word read so far is long enough and every matcher accepts it. -/
def acceptsWalk (q : GraphQuery) (s : WalkState) : Checked Bool := do
  if s.depth < q.minDepth then return false
  else if !(← (q.patterns.zip s.patterns).allM fun (p, live) => completePattern p live) then
    return false
  else return (q.racks.zip s.racks).all fun (rack, ways) => acceptsRack rack.2 ways s.depth

/-- The words along the edges that are found from a state. -/
def walk {σ : Type} (step : σ → UInt8 → Checked (Option σ)) (accepts : σ → Checked Bool) :
    Edges → σ → Checked (List Word)
  | .nil, _ => return []
  | .edge l m below others, state => do
    let here ←
      match ← step state l with
      | none => pure []
      | some next => do
        let ends ← if m.terminal then accepts next else pure false
        let longer ← walk step accepts below next
        pure (if ends then [l] :: longer.map (l :: ·) else longer.map (l :: ·))
    let rest ← walk step accepts others state
    return here ++ rest

/-- The words along the edges that answer the positive part of the query. -/
def runQuery (q : GraphQuery) (e : Edges) : Checked (List Word) := do
  if q.depthLimit.any (· < q.minDepth) then return []
  else
    let start ← startWalk q
    walk (stepWalk q) (acceptsWalk q) e start

/-- No negated condition holds of the word. -/
def allows (q : GraphQuery) (w : Word) : Checked Bool := do
  if ← q.excludedPatterns.anyM (spellsPattern · w) then return false
  else
    let spelled ← q.excludedRacks.anyM fun (r, mode) => spellsRack r mode w
    return !spelled

/-- The words of a vocabulary that answer a query. -/
def runVocabulary (v : Vocabulary) (q : GraphQuery) : Checked (List Word) :=
  match v.backward.filter fun _ => q.prefersReverse with
  | some g => do
    let found ← runQuery q.reversed g.root.edges
    let kept ← filter (allows q) (found.map List.reverse)
    return Word.sort kept
  | none => do
    let found ← runQuery q v.forward.root.edges
    filter (allows q) found

/-- The marks for the patterns before and for one more, if it spells the word. -/
def markPattern (w : Word) (marks : List Bool) (p : Pattern) : Checked (List Bool) := do
  match ← literalPath p.tokens w with
  | some more => return GraphQuery.bothLiteral marks more
  | none => return marks

/-- For each byte of a word, whether every pattern and every rack spells it literally. -/
def literalLetters (q : GraphQuery) (w : Word) : Checked (List Bool) := do
  let marks ← q.patterns.foldlM (markPattern w) (w.map fun _ => true)
  return q.racks.foldl (fun marks (r, _) => GraphQuery.bothLiteral marks (r.literalLetters w)) marks

/-- The word with its wildcards marked. -/
def markWildcards (q : GraphQuery) (w : Word) : Checked Word := do
  let marks ← literalLetters q w
  return (w.zip marks).flatMap fun (b, literal) =>
    String.utf8EncodeChar (Char.ofNat (if literal then b else lowerByte b).toNat)

/-- The words that satisfy the patterns, racks and lengths among the conditions, marked. -/
def searchMarked (v : Vocabulary) (conditions : List Condition) : Checked (List Word) := do
  match ← queryOf conditions with
  | none => return []
  | some q => do
    let found ← runVocabulary v q
    found.mapM (markWildcards q)

/-! ## §3 Queries fit into the tables -/

theorem addPattern_eq (q : GraphQuery) (text : String) (negated : Bool) :
    addPattern q text negated = pure (q.addPattern text negated) := by
  rw [addPattern, readPattern_eq, pure_bind]
  rfl

theorem addRack_eq (q : GraphQuery) (letters : String) (mode : RackMode) (negated : Bool) :
    addRack q letters mode negated = pure (q.addRack letters mode negated) := by
  rw [addRack, readRack_eq, pure_bind]
  rfl

theorem addCondition_eq (q : GraphQuery) (c : Condition) : addCondition q c = pure (q.add c) := by
  cases c with
  | pattern text negated => exact addPattern_eq q text negated
  | anagram letters negated => exact addRack_eq q letters .anagram negated
  | subanagram letters negated => exact addRack_eq q letters .subanagram negated
  | consist letters lengths negated => exact addRack_eq q letters _ negated
  | _ => rfl

/-- **The query of any conditions** is found without a fault. -/
theorem queryOf_eq (conditions : List Condition) :
    queryOf conditions = pure (GraphQuery.ofConditions conditions) :=
  foldOption_eq addCondition_eq .any

theorem fitsTables_any : GraphQuery.any.FitsTables := ⟨nofun, nofun, nofun, nofun⟩

/-- What holds of the elements and of one more holds of all. -/
theorem forall_mem_append_singleton {α : Type} {p : α → Prop} {l : List α} {a : α}
    (h : ∀ b ∈ l, p b) (ha : p a) : ∀ b ∈ l ++ [a], p b := by
  intro b hb
  rcases List.mem_append.mp hb with hb | hb
  · exact h b hb
  · exact List.mem_singleton.mp hb ▸ ha

theorem fitsTables_addPattern {q next : GraphQuery} (hq : q.FitsTables) {text : String}
    {negated : Bool} (h : q.addPattern text negated = some next) : next.FitsTables := by
  obtain ⟨p, hp, rfl⟩ := Option.map_eq_some_iff.mp h
  have hlength := length_tokens_of_read hp
  cases negated with
  | false => exact { hq with patterns := forall_mem_append_singleton hq.patterns hlength }
  | true =>
    exact { hq with
      excludedPatterns := forall_mem_append_singleton hq.excludedPatterns hlength }

theorem fitsTables_addRack {q next : GraphQuery} (hq : q.FitsTables) {letters : String}
    {mode : RackMode} {negated : Bool} (h : q.addRack letters mode negated = some next) :
    next.FitsTables := by
  obtain ⟨r, hr, rfl⟩ := Option.map_eq_some_iff.mp h
  have hfits := fitsTables_of_read hr
  cases negated with
  | false => exact { hq with racks := forall_mem_append_singleton hq.racks hfits }
  | true => exact { hq with excludedRacks := forall_mem_append_singleton hq.excludedRacks hfits }

theorem fitsTables_add {q next : GraphQuery} (hq : q.FitsTables) {c : Condition}
    (h : q.add c = some next) : next.FitsTables := by
  cases c with
  | pattern => exact fitsTables_addPattern hq h
  | anagram => exact fitsTables_addRack hq h
  | subanagram => exact fitsTables_addRack hq h
  | consist => exact fitsTables_addRack hq h
  -- A length range touches no table.
  | length r =>
    cases h
    unfold GraphQuery.addLengths
    split <;> exact { hq with }
  | _ =>
    cases h
    exact hq

/-- **The query of conditions** fits into the tables. -/
theorem fitsTables_of_conditions {conditions : List Condition} {q : GraphQuery}
    (h : GraphQuery.ofConditions conditions = some q) : q.FitsTables := by
  -- The query is built by a fold, so the bound is kept from any start that has it.
  suffices hadd : ∀ start : GraphQuery, start.FitsTables →
      conditions.foldlM GraphQuery.add start = some q → q.FitsTables from hadd .any fitsTables_any h
  clear h
  induction conditions with
  | nil =>
    intro start hstart h
    cases h
    exact hstart
  | cons c conditions ih =>
    intro start hstart h
    rw [List.foldlM_cons] at h
    obtain ⟨next, hnext, hrest⟩ := Option.bind_eq_some_iff.mp h
    exact ih next (fitsTables_add hstart hnext) hrest

theorem fitsTables_reversed {q : GraphQuery} (hq : q.FitsTables) : q.reversed.FitsTables where
  patterns p hp := by
    obtain ⟨p', hp', rfl⟩ := List.mem_map.mp hp
    simpa [Pattern.reversed] using hq.patterns p' hp'
  excludedPatterns := hq.excludedPatterns
  racks := hq.racks
  excludedRacks := hq.excludedRacks

/-! ## §4 States of walks -/

/-- Each of some matchers has a word that shows where it stands. -/
inductive ShowsAll {α ρ σ : Type} (R : α → ρ → σ → Prop) : List α → List ρ → List σ → Prop where
  | nil : ShowsAll R [] [] []
  | cons {a : α} {word : ρ} {state : σ} {as : List α} {words : List ρ} {states : List σ}
      (here : R a word state) (others : ShowsAll R as words states) :
      ShowsAll R (a :: as) (word :: words) (state :: states)

/-- The bits and tiles show where the matchers of a query stand. -/
structure ShowsState (q : GraphQuery) (word : WalkState) (state : GraphQuery.State) : Prop where
  depth : word.depth = state.depth
  patterns : ShowsAll ShowsPattern q.patterns word.patterns state.patterns
  racks : ShowsAll (fun rack => ShowsWays rack.1) q.racks word.racks state.racks

section Matchers

variable {α ρ σ : Type} {R : α → ρ → σ → Prop} {as : List α} {words : List ρ} {states : List σ}

/-- **All matchers begin** if each of them does. -/
theorem exists_showsAll {f : α → Checked ρ} {g : α → σ}
    (h : ∀ a ∈ as, ∃ word, f a = pure word ∧ R a word (g a)) :
    ∃ words, as.mapM f = pure words ∧ ShowsAll R as words (as.map g) := by
  induction as with
  | nil => exact ⟨[], rfl, .nil⟩
  | cons a as ih =>
    obtain ⟨word, hword, hshows⟩ := h a (by simp)
    obtain ⟨words, hwords, hall⟩ := ih fun b hb => h b (by simp [hb])
    exact ⟨word :: words, by rw [List.mapM_cons, hword, hwords]; rfl, .cons hshows hall⟩

/-- **All matchers step** if each of them does, and none if one of them gives up. -/
theorem advance_eq {step : α → ρ → Checked (Option ρ)} {step' : α → σ → Option σ}
    (hstep : ∀ a ∈ as, ∀ word state, R a word state →
      ∃ next, step a word = pure next ∧ Option.Rel (R a) next (step' a state))
    (h : ShowsAll R as words states) :
    ∃ next, advance step as words = pure next ∧
      Option.Rel (ShowsAll R as) next (GraphQuery.advance step' as states) := by
  induction h with
  | nil => exact ⟨some [], rfl, .some .nil⟩
  | @cons a word state as words states here others ih =>
    obtain ⟨next, hnext, hrel⟩ := hstep a (by simp) word state here
    obtain ⟨rest, hrest, hall⟩ := ih fun b hb => hstep b (by simp [hb])
    rw [advance, hnext, pure_bind, GraphQuery.advance]
    -- The first one that gives up decides, and the others are not asked.
    generalize step' a state = next' at hrel ⊢
    cases hrel with
    | none => exact ⟨none, rfl, .none⟩
    | some hshows =>
      dsimp only
      rw [hrest, pure_bind]
      refine ⟨_, rfl, ?_⟩
      generalize GraphQuery.advance step' as states = rest' at hall ⊢
      cases hall with
      | none => exact .none
      | some hall => exact .some (.cons hshows hall)

/-- **All matchers accept** if each of them does. -/
theorem allM_zip_eq {f : α × ρ → Checked Bool} {g : σ → Bool}
    (haccepts : ∀ a ∈ as, ∀ word state, R a word state → f (a, word) = pure (g state))
    (h : ShowsAll R as words states) : (as.zip words).allM f = pure (states.all g) := by
  induction h with
  | nil => rfl
  | @cons a word state as words states here others ih =>
    have hrest := ih fun b hb => haccepts b (by simp [hb])
    rw [List.zip_cons_cons, List.allM_cons, haccepts a (by simp) word state here, pure_bind, hrest,
      List.all_cons]
    cases g state <;> rfl

theorem all_zip_eq {f : α × ρ → Bool} {g : α × σ → Bool}
    (haccepts : ∀ a word state, R a word state → f (a, word) = g (a, state))
    (h : ShowsAll R as words states) : (as.zip words).all f = (as.zip states).all g := by
  induction h with
  | nil => rfl
  | @cons a word state as words states here others ih =>
    rw [List.zip_cons_cons, List.zip_cons_cons, List.all_cons, List.all_cons, ih,
      haccepts a word state here]

end Matchers

/-! ## §5 Walks -/

section Walks

variable {q : GraphQuery} (hq : q.FitsTables)

include hq in
/-- **A walk begins** without a fault. -/
theorem startWalk_eq : ∃ word, startWalk q = pure word ∧ ShowsState q word q.start := by
  obtain ⟨patterns, hpatterns, hlive⟩ := exists_showsAll (R := ShowsPattern)
    (g := Pattern.start) fun p hp => startPattern_eq (hq.patterns p hp)
  obtain ⟨racks, hracks, hways⟩ := exists_showsAll
    (R := fun (rack : Rack × RackMode) => ShowsWays rack.1) (g := fun rack => [rack.1.start])
    (f := fun rack => do
      let tiles ← startTiles rack.1
      return [tiles]) fun rack (hrack : rack ∈ q.racks) => by
        obtain ⟨tiles, htiles, hshows⟩ := startTiles_eq (hq.racks rack hrack)
        exact ⟨[tiles], by rw [htiles]; rfl, .single hshows⟩
  exact ⟨⟨0, patterns, racks⟩, by rw [startWalk, hpatterns, hracks]; rfl, rfl, hlive, hways⟩

/-- A pattern steps, or gives up when no bit is left. -/
theorem advancePattern_eq {p : Pattern} (hp : p.tokens.length ≤ Pattern.maxTokens) (b : UInt8)
    {word : LiveWord} {live : Live} (h : ShowsPattern p word live) :
    ∃ next, advancePattern b p word = pure next ∧
      Option.Rel (ShowsPattern p) next (p.step live b) := by
  obtain ⟨next, hnext, hstep⟩ := stepPattern_eq hp h b
  rw [advancePattern, hnext, pure_bind]
  generalize p.step live b = live' at hstep ⊢
  cases live' with
  | none => exact ⟨none, by rw [if_pos hstep], .none⟩
  | some live' => exact ⟨some next, by rw [if_neg hstep.1], .some hstep.2⟩

/-- A rack steps, or gives up when no way is left. -/
theorem advanceRack_eq {rack : Rack × RackMode} (hrack : rack.1.FitsTables) {b : UInt8}
    (hb : isUpper b = true) {words : List TileWord} {ways : List Tiles}
    (h : ShowsWays rack.1 words ways) :
    ∃ next, advanceRack b rack words = pure next ∧
      Option.Rel (ShowsWays rack.1) next (rack.1.step ways b) := by
  obtain ⟨next, hnext, hstep⟩ := stepRack_eq hrack h hb
  rw [advanceRack, hnext, pure_bind]
  generalize rack.1.step ways b = ways' at hstep ⊢
  cases ways' with
  | none => exact ⟨none, by rw [hstep]; rfl, .none⟩
  | some ways' =>
    exact ⟨some next, by rw [if_neg (mt List.isEmpty_iff.mp hstep.1)], .some hstep.2⟩
-- Both searches are advanced side by side, patterns first, and stop at the same test.

include hq in
/-- **A step with a capital letter** makes no fault, and all matchers stand where they should. -/
theorem stepWalk_eq {word : WalkState} {state : GraphQuery.State} (h : ShowsState q word state)
    {b : UInt8} (hb : isUpper b = true) :
    ∃ next, stepWalk q word b = pure next ∧ Option.Rel (ShowsState q) next (q.step state b) := by
  obtain ⟨patterns, hpatterns, hlive⟩ := advance_eq
    (fun p hp _ _ hshows => advancePattern_eq (hq.patterns p hp) b hshows) h.patterns
  obtain ⟨racks, hracks, hways⟩ := advance_eq
    (fun rack hrack _ _ hshows => advanceRack_eq (hq.racks rack hrack) hb hshows) h.racks
  rw [stepWalk, h.depth, GraphQuery.step]
  split
  · exact ⟨none, rfl, .none⟩
  · rw [hpatterns, pure_bind]
    generalize GraphQuery.advance (fun p live => p.step live b) q.patterns state.patterns =
      patterns' at hlive ⊢
    cases hlive with
    | none => exact ⟨none, rfl, .none⟩
    | some hlive =>
      dsimp only
      rw [hracks, pure_bind]
      refine ⟨_, rfl, ?_⟩
      generalize GraphQuery.advance (fun (rack : Rack × RackMode) ways => rack.1.step ways b)
        q.racks state.racks = racks' at hways ⊢
      cases hways with
      | none => exact .none
      | some hways => exact .some ⟨rfl, hlive, hways⟩

include hq in
theorem acceptsWalk_eq {word : WalkState} {state : GraphQuery.State} (h : ShowsState q word state) :
    acceptsWalk q word = pure (q.accepts state) := by
  have hpatterns := allM_zip_eq (f := fun (p, live) => completePattern p live)
    (fun p hp _ _ hshows => completePattern_eq (hq.patterns p hp) hshows) h.patterns
  have hracks := all_zip_eq
    (f := fun (rack, ways) => acceptsRack rack.2 ways state.depth)
    (g := fun ranked => Rack.accepts ranked.1.2 ranked.2 state.depth)
    (fun rack _ _ hshows => acceptsRack_eq hshows rack.2 state.depth) h.racks
  -- The length is tested first, and racks are only asked once the patterns are complete.
  rw [acceptsWalk, GraphQuery.accepts, h.depth, hpatterns, pure_bind]
  by_cases hdepth : state.depth < q.minDepth
  · rw [if_pos hdepth, decide_eq_false (Nat.not_le.mpr hdepth)]
    rfl
  · rw [if_neg hdepth, decide_eq_true (Nat.le_of_not_lt hdepth)]
    cases state.patterns.all Live.complete with
    | false => rfl
    | true => exact congrArg pure hracks

end Walks

/-- **A checked walk** along edges with capital letters finds what a scanner finds, if its steps do
what those of the scanner do. -/
theorem walk_eq {ρ σ : Type} {R : ρ → σ → Prop} {step : ρ → UInt8 → Checked (Option ρ)}
    {accepts : ρ → Checked Bool} (scanner : Scanner σ)
    (hstep : ∀ word state, R word state → ∀ b, isUpper b = true →
      ∃ next, step word b = pure next ∧ Option.Rel R next (scanner.step state b))
    (haccepts : ∀ word state, R word state → accepts word = pure (scanner.accepts state))
    {e : Edges} (he : e.Upper) {word : ρ} {state : σ} (h : R word state) :
    walk step accepts e word = pure (scanner.scan e state) := by
  -- Below an edge the walk is in the next state, and beside it in the same one.
  induction e generalizing word state with
  | nil => rfl
  | edge l m below others ihBelow ihOthers =>
    obtain ⟨hl, hbelow, hothers⟩ := he
    obtain ⟨next, hnext, hrel⟩ := hstep word state h l hl
    rw [walk, hnext, pure_bind, Scanner.scan, ihOthers hothers h]
    generalize scanner.step state l = next' at hrel ⊢
    cases hrel with
    | none => rfl
    | some hshows =>
      dsimp only
      rw [haccepts _ _ hshows, ihBelow hbelow hshows]
      cases m.terminal with
      | false => rfl
      | true => rfl

section Runs

variable {q : GraphQuery} (hq : q.FitsTables)

include hq in
/-- **The walk of a query** along edges with capital letters makes no fault. -/
theorem runQuery_eq {e : Edges} (he : e.Upper) : runQuery q e = pure (q.run e) := by
  obtain ⟨word, hword, hshows⟩ := startWalk_eq hq
  unfold runQuery GraphQuery.run
  split
  · rfl
  · rw [hword, pure_bind]
    exact walk_eq q.scanner (R := ShowsState q) (fun _ _ h _ hb => stepWalk_eq hq h hb)
      (fun _ _ h => acceptsWalk_eq hq h) he hshows

include hq in
theorem allows_eq {w : Word} (hw : w.InCapitals) : allows q w = pure (q.allows w) := by
  have hpatterns := anyM_eq (l := q.excludedPatterns) (p := (spellsPattern · w))
    (q := (·.spells w)) fun p hp => spellsPattern_eq (hq.excludedPatterns p hp) w
  have hracks := anyM_eq (l := q.excludedRacks) (p := fun (r, mode) => spellsRack r mode w)
    (q := fun (r, mode) => r.spells mode w)
    fun rack hrack => spellsRack_eq (hq.excludedRacks rack hrack) rack.2 hw
  rw [allows, hpatterns, pure_bind, GraphQuery.allows]
  cases q.excludedPatterns.any (·.spells w) with
  | true => rfl
  | false => rw [if_neg Bool.false_ne_true, hracks]; rfl

end Runs

/-! ## §6 Searching a vocabulary -/

theorem literalLetters_eq (q : GraphQuery) (w : Word) :
    literalLetters q w = pure (q.literalLetters w) := by
  have hmark (marks : List Bool) (p : Pattern) : markPattern w marks p = pure
      (match p.literalLetters w with
      | some more => GraphQuery.bothLiteral marks more
      | none => marks) := by
    rw [markPattern, literalPath_eq, pure_bind, Pattern.literalLetters]
    cases Pattern.literalMarks p.tokens w <;> rfl
  rw [literalLetters, foldlM_eq hmark, pure_bind]
  rfl

theorem markWildcards_eq (q : GraphQuery) (w : Word) :
    markWildcards q w = pure (q.markWildcards w) := by
  rw [markWildcards, literalLetters_eq, pure_bind]
  rfl

/-- The words that a query finds along edges with capital letters are made of them. -/
theorem inCapitals_of_mem_run {q : GraphQuery} {e : Edges} (he : e.Upper) {w : Word}
    (hw : w ∈ q.run e) : w.InCapitals := by
  unfold GraphQuery.run at hw
  split at hw
  · cases hw
  · rw [Scanner.scan_eq_filter] at hw
    exact he.inCapitals w (List.mem_of_mem_filter hw)

section Vocabularies

variable {v : Vocabulary} (hv : v.IsUpper)

include hv in
/-- **Both graphs** are walked along without a fault. -/
theorem runVocabulary_eq {q : GraphQuery} (hq : q.FitsTables) :
    runVocabulary v q = pure (v.run q) := by
  unfold runVocabulary Vocabulary.run
  cases hg : v.backward.filter fun _ => q.prefersReverse with
  | some g =>
    have hupper := hv.backward g (Option.filter_eq_some_iff.mp hg).1
    dsimp only
    rw [runQuery_eq (fitsTables_reversed hq) hupper, pure_bind, filter_eq, pure_bind]
    intro w hw
    obtain ⟨turned, hturned, rfl⟩ := List.mem_map.mp hw
    -- Excluded racks are asked for the words as they were turned back.
    have hcapitals := inCapitals_of_mem_run hupper hturned
    exact allows_eq hq fun b hb => hcapitals b (List.mem_reverse.mp hb)
  | none =>
    dsimp only
    rw [runQuery_eq hq hv.forward, pure_bind]
    exact filter_eq fun w hw => allows_eq hq (inCapitals_of_mem_run hv.forward hw)

include hv in
/-- **A search in a vocabulary** with capital letters makes no fault, whatever the conditions are. -/
theorem searchMarked_eq (conditions : List Condition) :
    searchMarked v conditions = pure (v.searchMarked conditions) := by
  rw [searchMarked, queryOf_eq, pure_bind, Vocabulary.searchMarked]
  cases hquery : GraphQuery.ofConditions conditions with
  | none => rfl
  | some q =>
    have hq := fitsTables_of_conditions hquery
    dsimp only
    rw [runVocabulary_eq hv hq, pure_bind]
    exact mapM_eq fun w _ => markWildcards_eq q w

end Vocabularies

end Checked

end WordStudy
