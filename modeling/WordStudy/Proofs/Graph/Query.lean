import WordStudy.Graph.Query
import WordStudy.Proofs.Graph.Order
import WordStudy.Proofs.Match.Lengths

/-!
# What a graph query finds

The walk of a query prunes by depth, carries the states of its matchers along the edges and checks
the negated part at the end. **None of it is seen in the answer**: the walk finds the words that the
conditions ask for when each word is read alone, forwards and backwards.
-/

namespace WordStudy

/-! ## §1 The reading of a condition -/

namespace Condition

/-- The pattern that a text writes spells the word, or does not if it is negated. -/
def patternFits (text : String) (negated : Bool) (w : Word) : Bool :=
  (Pattern.read text).any fun p => p.spells w != negated

/-- The rack that a text writes spells the word, or does not if it is negated. -/
def rackFits (letters : String) (mode : RackMode) (negated : Bool) (w : Word) : Bool :=
  (Rack.read letters).any fun r => r.spells mode w != negated

/-- **The word fits the condition**, as far as patterns, racks and lengths go; it fits every other
condition. No word fits a condition whose text is malformed, negated or not. -/
def fits (w : Word) : Condition → Bool
  | pattern text negated => patternFits text negated w
  | anagram letters negated => rackFits letters .anagram negated w
  | subanagram letters negated => rackFits letters .subanagram negated w
  | consist letters lengths negated =>
    rackFits letters (.consist (max lengths.least 1) lengths.greatest) negated w
  | length range => range.contains w.length
  | _ => true

/-- The condition is a pattern or a rack, and its text cannot be read. -/
def isMalformed : Condition → Bool
  | pattern text _ => (Pattern.read text).isNone
  | anagram letters _ => (Rack.read letters).isNone
  | subanagram letters _ => (Rack.read letters).isNone
  | consist letters _ _ => (Rack.read letters).isNone
  | _ => false

/-- No word fits a malformed condition. -/
theorem fits_of_isMalformed {c : Condition} (h : c.isMalformed = true) (w : Word) :
    c.fits w = false := by
  cases c <;> simp_all [isMalformed, fits, patternFits, rackFits]

end Condition

namespace GraphQuery

/-- The word answers the positive part of the query. -/
def wants (q : GraphQuery) (w : Word) : Bool :=
  q.lengths.all (·.contains w.length) && q.patterns.all (·.spells w) &&
    q.racks.all fun (r, mode) => r.spells mode w

/-! ## §2 Matchers side by side -/

/-- **Matchers that go on side by side** are asked one by one. -/
theorem any_advance {α σ : Type} (step : α → σ → Option σ) (found : α → σ → Bool) (as : List α)
    (states : List σ) :
    (advance step as states).any (fun next => (as.zip next).all fun (a, s) => found a s) =
      (as.zip states).all fun (a, s) => (step a s).any (found a) := by
  induction as generalizing states with
  | nil => rfl
  | cons a as ih =>
    cases states with
    | nil => rfl
    | cons s states =>
      simp only [advance, List.zip_cons_cons, List.all_cons, ← ih]
      cases step a s with
      | none => rfl
      | some next =>
        cases advance step as states with
        | none => simp
        | some rest => simp

theorem length_advance {α σ : Type} {step : α → σ → Option σ} {as : List α} {states next : List σ}
    (h : advance step as states = some next) (hlength : states.length = as.length) :
    next.length = as.length := by
  induction as generalizing states next with
  | nil =>
    cases h
    rfl
  | cons a as ih =>
    cases states with
    | nil => simp at hlength
    | cons s states =>
      simp only [advance] at h
      split at h
      · cases h
      · obtain ⟨rest, hrest, rfl⟩ := Option.map_eq_some_iff.mp h
        simpa using ih hrest (by simpa using hlength)

theorem all_zip_snd {α σ : Type} (p : σ → Bool) {as : List α} {states : List σ}
    (h : states.length = as.length) : (as.zip states).all (fun (_, s) => p s) = states.all p := by
  induction as generalizing states with
  | nil => simp_all
  | cons a as ih =>
    cases states with
    | nil => simp at h
    | cons s states => simp [ih (by simpa using h)]

theorem all_zip_map {α σ : Type} (f : α → σ) (p : α → σ → Bool) (as : List α) :
    (as.zip (as.map f)).all (fun (a, s) => p a s) = as.all fun a => p a (f a) := by
  induction as with
  | nil => rfl
  | cons a as ih => simp [ih]

/-! ## §3 Pruning -/

/-- The smallest of some upper bounds holds if all of them do. -/
theorem all_minBound (m n : Option Nat) (k : Nat) :
    (minBound m n).all (k ≤ ·) = (m.all (k ≤ ·) && n.all (k ≤ ·)) := by
  cases m <;> cases n <;> grind [minBound]

theorem all_foldl_minBound (bounds : List (Option Nat)) (m : Option Nat) (k : Nat) :
    (bounds.foldl minBound m).all (k ≤ ·) =
      (m.all (k ≤ ·) && bounds.all fun bound => bound.all (k ≤ ·)) := by
  induction bounds generalizing m with
  | nil => simp
  | cons bound bounds ih => simp [ih, all_minBound, Bool.and_assoc]

theorem foldl_max_le (ns : List Nat) (m k : Nat) :
    ns.foldl max m ≤ k ↔ m ≤ k ∧ ∀ n ∈ ns, n ≤ k := by
  induction ns generalizing m with
  | nil => simp
  | cons n ns ih =>
    simp only [List.foldl_cons, ih, List.mem_cons, forall_eq_or_imp, Nat.max_le, and_assoc]

/-- A word that the query wants is not cut off by the depth limit. -/
theorem depthLimit_of_wants {q : GraphQuery} {w : Word} (h : q.wants w = true) :
    q.depthLimit.all (w.length ≤ ·) = true := by
  simp only [wants, Bool.and_eq_true, List.all_eq_true] at h
  obtain ⟨⟨hlengths, hpatterns⟩, hracks⟩ := h
  simp only [depthLimit, all_foldl_minBound, List.all_append, Bool.and_eq_true, List.all_map,
    List.all_eq_true, Function.comp]
  refine ⟨?_, ?_, ?_⟩
  · cases hq : q.lengths with
    | none => simp [maxLength?, hq]
    | some r =>
      simp only [hq, Option.all_some, Bounds.contains, Bool.and_eq_true, decide_eq_true_eq]
        at hlengths
      simp [maxLength?, hq, hlengths.2]
  · intro p hp
    cases hfixed : p.fixedLength? with
    | none => rfl
    | some n => simp [Pattern.length_eq_of_fixedLength (hpatterns p hp) hfixed]
  · rintro ⟨r, mode⟩ hr
    cases hmax : r.maxLength? mode with
    | none => simp
    | some n => simp [Rack.length_le_maxLength (hracks _ hr) hmax]

/-- A word that the query wants is not too short to be looked at. -/
theorem minDepth_of_wants {q : GraphQuery} {w : Word} (h : q.wants w = true) (hw : w ≠ []) :
    q.minDepth ≤ w.length := by
  simp only [wants, Bool.and_eq_true, List.all_eq_true] at h
  obtain ⟨⟨hlengths, hpatterns⟩, _⟩ := h
  have hpos := List.length_pos_iff.mpr hw
  simp only [minDepth, foldl_max_le, List.mem_map, forall_exists_index, and_imp,
    forall_apply_eq_imp_iff₂]
  refine ⟨?_, fun p hp => Pattern.minLength_le (hpatterns p hp)⟩
  -- A word has a letter, so that a least length of none and of one are the same.
  cases hq : q.lengths with
  | none =>
    simp only [minLength, hq, Option.map_none, Option.getD_none]
    omega
  | some r =>
    simp only [hq, Option.all_some, Bounds.contains, Bool.and_eq_true, decide_eq_true_eq]
      at hlengths
    simp only [minLength, hq, Option.map_some, Option.getD_some]
    omega

/-- A word within the limits has a length that is asked for. -/
theorem lengths_of_limits {q : GraphQuery} {n : Nat} (hlimit : q.depthLimit.all (n ≤ ·) = true)
    (hleast : q.minDepth ≤ n) : q.lengths.all (·.contains n) = true := by
  simp only [depthLimit, all_foldl_minBound, Bool.and_eq_true] at hlimit
  have hbound := hlimit.1
  have hmin := ((foldl_max_le _ _ _).mp hleast).1
  cases hq : q.lengths with
  | none => rfl
  | some r =>
    simp only [maxLength?, minLength, hq, Option.map_some, Option.all_some, Option.getD_some,
      decide_eq_true_eq] at hbound hmin
    simp only [Option.all_some, Bounds.contains, Bool.and_eq_true, decide_eq_true_eq]
    omega

/-! ## §4 The walk -/

/-- What is left to be found behind a state of the walk: a word that stays within the limits and
ends every matcher where it accepts. -/
def findsFrom (q : GraphQuery) (s : State) (w : Word) : Bool :=
  q.depthLimit.all (s.depth + w.length ≤ ·) && q.minDepth ≤ s.depth + w.length &&
    ((q.patterns.zip s.patterns).all fun (p, live) =>
      (w.foldlM p.step live).any Live.complete) &&
    (q.racks.zip s.racks).all fun (rack, ways) =>
      (w.foldlM rack.1.step ways).any fun ways => Rack.accepts rack.2 ways (s.depth + w.length)

/-- **Each matcher is on its own**: the walk finds a word from a state exactly if the word is within
the limits and every matcher accepts it from where it stands. -/
theorem finds_eq_findsFrom (q : GraphQuery) (w : Word) {s : State}
    (hdepth : q.depthLimit.all (s.depth ≤ ·) = true)
    (hlength : s.patterns.length = q.patterns.length) :
    q.scanner.finds s w = q.findsFrom s w := by
  induction w generalizing s with
  | nil =>
    have hcomplete := all_zip_snd Live.complete hlength
    simp only [Scanner.finds, scanner, List.foldlM_nil, findsFrom, List.length_nil, Nat.add_zero,
      hdepth, Bool.true_and]
    simp [accepts, ← hcomplete]
  | cons b w ih =>
    -- A step of the walk is one step of each matcher, and what is left to find is asked of each
    -- where it then stands.
    have hpatterns := any_advance (fun (p : Pattern) live => p.step live b)
      (fun p live => (w.foldlM p.step live).any Live.complete) q.patterns s.patterns
    have hracks := any_advance (fun (rack : Rack × RackMode) ways => rack.1.step ways b)
      (fun rack ways => (w.foldlM rack.1.step ways).any fun ways =>
        Rack.accepts rack.2 ways (s.depth + (w.length + 1))) q.racks s.racks
    rw [Scanner.finds_cons]
    simp only [findsFrom, List.length_cons, List.foldlM_cons, Option.bind_eq_bind, Option.any_bind,
      Function.comp_def, ← hpatterns, ← hracks]
    by_cases hend : q.depthLimit.any (· ≤ s.depth) = true
    · -- The limit is reached, and any longer word is beyond it.
      have hover : q.depthLimit.all (s.depth + (w.length + 1) ≤ ·) = false := by
        obtain ⟨n, hn, hle⟩ := (Option.any_eq_true _ _).mp hend
        simp only [decide_eq_true_eq] at hle
        simp only [hn, Option.all_some, decide_eq_false_iff_not]
        omega
      simp [scanner, step, hend, hover]
    · have hnext : q.depthLimit.all (s.depth + 1 ≤ ·) = true := by
        cases hn : q.depthLimit with
        | none => rfl
        | some n =>
          simp only [hn, Option.any_some, decide_eq_true_eq] at hend
          simp only [Option.all_some, decide_eq_true_eq]
          omega
      simp only [scanner, step, hend, Bool.false_eq_true, if_false]
      cases hp : advance (fun p live => p.step live b) q.patterns s.patterns with
      | none => simp
      | some patterns =>
        cases hr : advance (fun rack ways => rack.1.step ways b) q.racks s.racks with
        | none => simp
        | some racks =>
          have hrest := ih (s := ⟨s.depth + 1, patterns, racks⟩) hnext (length_advance hp hlength)
          simp only [scanner, findsFrom, Nat.add_assoc, Nat.add_comm 1] at hrest
          simpa using hrest

/-- **Nothing is lost or found by pruning**: from the start, the walk finds the words that the query
wants. -/
theorem finds_start (q : GraphQuery) {w : Word} (hw : w ≠ []) :
    q.scanner.finds q.start w = q.wants w := by
  have hdepth : q.depthLimit.all (q.start.depth ≤ ·) = true := by
    cases h : q.depthLimit <;> simp [start]
  have hfinds : q.findsFrom q.start w =
      (q.depthLimit.all (w.length ≤ ·) && q.minDepth ≤ w.length &&
        q.patterns.all (·.spells w) && q.racks.all fun (r, mode) => r.spells mode w) := by
    have hpatterns := all_zip_map Pattern.start
      (fun p live => (w.foldlM p.step live).any Live.complete) q.patterns
    have hracks := all_zip_map (fun rack : Rack × RackMode => [rack.1.start])
      (fun rack ways => (w.foldlM rack.1.step ways).any fun ways =>
        Rack.accepts rack.2 ways w.length) q.racks
    simp only [findsFrom, start, Nat.zero_add, hpatterns, hracks, Pattern.spells_eq_any,
      Rack.spells_eq_any]
  rw [finds_eq_findsFrom q w hdepth (by simp [start]), hfinds, Bool.eq_iff_iff]
  constructor
  · intro hfound
    simp only [Bool.and_eq_true, decide_eq_true_eq] at hfound
    obtain ⟨⟨⟨hlimit, hleast⟩, hpatterns⟩, hracks⟩ := hfound
    simp only [wants, Bool.and_eq_true]
    exact ⟨⟨lengths_of_limits hlimit hleast, hpatterns⟩, hracks⟩
  · intro hwants
    have hlimit := depthLimit_of_wants hwants
    have hleast := minDepth_of_wants hwants hw
    simp only [wants, Bool.and_eq_true] at hwants
    simp only [Bool.and_eq_true, decide_eq_true_eq]
    exact ⟨⟨⟨hlimit, hleast⟩, hwants.1.2⟩, hwants.2⟩

theorem run_eq_filter (q : GraphQuery) (e : Edges) : q.run e = e.words.filter q.wants := by
  have hne : ∀ w ∈ e.words, w ≠ [] := fun w hw heq => Edges.nil_notMem_words e (heq ▸ hw)
  unfold run
  split
  · next hcut =>
    -- The lengths contradict each other, so that no word is wanted.
    refine (List.filter_eq_nil_iff.mpr ?_).symm
    intro w hw hwants
    have hlimit := depthLimit_of_wants hwants
    have hleast := minDepth_of_wants hwants (hne w hw)
    obtain ⟨n, hn, hlt⟩ := (Option.any_eq_true _ _).mp hcut
    simp only [hn, Option.all_some, decide_eq_true_eq] at hlimit hlt
    omega
  · rw [Scanner.scan_eq_filter]
    exact List.filter_congr fun w hw => finds_start q (hne w hw)

/-! ## §5 Backwards -/

/-- **Without racks, the reversed query wants the reversed words.** -/
theorem wants_reversed {q : GraphQuery} (hracks : q.racks = []) (w : Word) :
    q.reversed.wants w.reverse = q.wants w := by
  simp [wants, reversed, hracks, List.all_map, Function.comp_def, Pattern.spells_reversed]

theorem racks_eq_nil_of_prefersReverse {q : GraphQuery} (h : q.prefersReverse = true) :
    q.racks = [] := by
  simp only [prefersReverse, Bool.and_eq_true, List.isEmpty_iff] at h
  exact h.1.1

/-! ## §6 From conditions -/

/-- The word answers the query, its negated part included. -/
def answers (q : GraphQuery) (w : Word) : Bool := q.wants w && q.allows w

/-- A range leaves the words of its lengths. -/
theorem answers_addLengths (q : GraphQuery) (r : Bounds) (w : Word) :
    (q.addLengths r).answers w = (q.answers w && r.contains w.length) := by
  have hlengths : (q.addLengths r).lengths.all (·.contains w.length) =
      (q.lengths.all (·.contains w.length) && r.contains w.length) := by
    cases hq : q.lengths with
    | none => simp [addLengths, hq]
    | some s =>
      simp only [addLengths, hq, Option.all_some, ← Bounds.contains_narrow, Bounds.meet]
      split
      -- The ranges share no number, and the query is left with a range that has none.
      · next hempty =>
        rw [Bounds.contains_of_isEmpty hempty, Option.getD_none,
          Bounds.contains_of_isEmpty (by rfl)]
      · rfl
  have hothers : (q.addLengths r).patterns = q.patterns ∧ (q.addLengths r).racks = q.racks ∧
      (q.addLengths r).allows w = q.allows w := by
    unfold addLengths
    split <;> exact ⟨rfl, rfl, rfl⟩
  simp only [answers, wants, hlengths, hothers.1, hothers.2.1, hothers.2.2]
  ac_rfl

theorem answers_addPattern {q q' : GraphQuery} {text : String} {negated : Bool}
    (h : q.addPattern text negated = some q') (w : Word) :
    q'.answers w = (q.answers w && Condition.patternFits text negated w) := by
  obtain ⟨p, hp, rfl⟩ := Option.map_eq_some_iff.mp h
  have hfits : Condition.patternFits text negated w = (p.spells w != negated) := by
    simp [Condition.patternFits, hp]
  rw [hfits]
  cases negated with
  | true =>
    simp only [answers, wants, allows, if_true, List.any_append, List.any_cons, List.any_nil,
      Bool.or_false, Bool.not_or, Bool.bne_true]
    ac_rfl
  | false =>
    simp only [answers, wants, allows, Bool.false_eq_true, if_false, List.all_append,
      List.all_cons, List.all_nil, Bool.and_true, Bool.bne_false]
    ac_rfl

theorem answers_addRack {q q' : GraphQuery} {letters : String} {mode : RackMode} {negated : Bool}
    (h : q.addRack letters mode negated = some q') (w : Word) :
    q'.answers w = (q.answers w && Condition.rackFits letters mode negated w) := by
  obtain ⟨r, hr, rfl⟩ := Option.map_eq_some_iff.mp h
  have hfits : Condition.rackFits letters mode negated w = (r.spells mode w != negated) := by
    simp [Condition.rackFits, hr]
  rw [hfits]
  cases negated with
  | true =>
    simp only [answers, wants, allows, if_true, List.any_append, List.any_cons, List.any_nil,
      Bool.or_false, Bool.not_or, Bool.bne_true]
    ac_rfl
  | false =>
    simp only [answers, wants, allows, Bool.false_eq_true, if_false, List.all_append,
      List.all_cons, List.all_nil, Bool.and_true, Bool.bne_false]
    ac_rfl

/-- **One more condition** narrows the answer to the words that fit it. -/
theorem answers_add {q q' : GraphQuery} {c : Condition} (h : q.add c = some q') (w : Word) :
    q'.answers w = (q.answers w && c.fits w) := by
  cases c with
  | pattern text negated => exact answers_addPattern h w
  | anagram letters negated => exact answers_addRack h w
  | subanagram letters negated => exact answers_addRack h w
  | consist letters lengths negated => exact answers_addRack h w
  | length r =>
    cases h
    exact answers_addLengths q r w
  | _ =>
    cases h
    simp [Condition.fits]

/-- A condition that cannot be added is malformed. -/
theorem add_eq_none_iff (q : GraphQuery) (c : Condition) :
    q.add c = none ↔ c.isMalformed = true := by
  cases c <;> simp [add, addPattern, addRack, Condition.isMalformed]

/-- **The query of a list of conditions** is answered by the words that fit all of them, and there
is none exactly if one of them is malformed. -/
theorem foldlM_add (conditions : List Condition) (q : GraphQuery) :
    (∀ q', conditions.foldlM add q = some q' →
      conditions.any (·.isMalformed) = false ∧
        ∀ w, q'.answers w = (q.answers w && conditions.all (·.fits w))) ∧
    (conditions.foldlM add q = none → conditions.any (·.isMalformed) = true) := by
  induction conditions generalizing q with
  | nil => simp [List.foldlM]
  | cons c rest ih =>
    rw [List.foldlM_cons]
    cases hc : q.add c with
    | none => simp [(add_eq_none_iff q c).mp hc]
    | some next =>
      have hwell : c.isMalformed = false := by
        rw [Bool.eq_false_iff, Ne, ← add_eq_none_iff q c, hc]
        simp
      obtain ⟨hsome, hnone⟩ := ih next
      refine ⟨?_, ?_⟩
      · intro q' hq'
        obtain ⟨hrest, hanswers⟩ := hsome q' hq'
        refine ⟨by simp [hwell, hrest], fun w => ?_⟩
        rw [hanswers, answers_add hc, List.all_cons, Bool.and_assoc]
      · intro hq'
        simp [hnone hq']

/-- A query of no conditions is answered by every word. -/
@[simp] theorem answers_any (w : Word) : any.answers w = true := rfl

end GraphQuery

end WordStudy
