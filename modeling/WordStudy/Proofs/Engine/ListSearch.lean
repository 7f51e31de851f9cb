import WordStudy.Engine.ListSearch
import WordStudy.Proofs.Lexicon.Refusals
import WordStudy.Proofs.Lexicon.Lookups

/-!
# Two ways to search word lists

A search by word lists starts from the lists, and a planned search from the rows of the store. For
a conjunction of lists and of ranges that the words themselves tell, the two find **the same words in
the same order**, except that a search by lists takes a negated list for one that is not.
-/

namespace WordStudy

open Text

/-! ## §1 What a search by lists reads -/

namespace Condition

/-- A search by lists reads the condition. -/
def isListable : Condition → Bool
  | inList .. | vowels _ | distinct _ | points _ | anagrams _ => true
  | _ => false

/-- The condition as it is read: **a list asks for its words**, even if it is negated. -/
def asked : Condition → Condition
  | inList words _ => inList words false
  | c => c

theorem isListable_asked (c : Condition) : c.asked.isListable = c.isListable := by
  cases c <;> rfl

theorem fitsLists_asked (c : Condition) : c.asked.fitsLists = c.fitsLists := by
  cases c <;> rfl

theorem asked_of_not_negated {c : Condition} (h : c.isNegated = false) : c.asked = c := by
  cases c with
  | inList words negated => exact congrArg (inList words) h.symm
  | _ => rfl

/-- **How a condition is planned** that a search by lists reads: it is one predicate on the rows, and
nothing else comes of it. -/
structure IsOnePredicate (c : Condition) : Prop where
  phase : c.phase true = .index
  single : (RowQuery.ofCondition c).length = 1
  unhinted : c.upper.lengthHint = none
  modest : c.isModest = true
  strict : c.isLax = false
  unwindowed : c.isWindow = false

theorem isOnePredicate_of_isListable {c : Condition} (h : c.isListable = true) :
    c.IsOnePredicate := by
  cases c with
  | inList words negated => exact ⟨rfl, rfl, rfl, rfl, rfl, rfl⟩
  | vowels r => exact ⟨rfl, rfl, rfl, rfl, rfl, rfl⟩
  | distinct r => exact ⟨rfl, rfl, rfl, rfl, rfl, rfl⟩
  | points r => exact ⟨rfl, rfl, rfl, rfl, rfl, rfl⟩
  | anagrams r => exact ⟨rfl, rfl, rfl, rfl, rfl, rfl⟩
  | _ => cases h

end Condition

/-- The specification as a search by lists reads it. -/
def SearchSpec.asked (spec : SearchSpec) : SearchSpec :=
  { spec with conditions := spec.conditions.map Condition.asked }

namespace SearchSpec

variable {spec : SearchSpec}

theorem forall_asked (h : ∀ c ∈ spec.conditions, c.isListable = true) :
    ∀ c ∈ spec.asked.conditions, c.isListable = true := by
  intro c hc
  obtain ⟨d, hd, rfl⟩ := List.mem_map.mp hc
  rw [Condition.isListable_asked, h d hd]

theorem asked_of_not_negated (h : ∀ c ∈ spec.conditions, c.isNegated = false) :
    spec.asked = spec := by
  have hmap : spec.conditions.map Condition.asked = spec.conditions :=
    (List.map_congr_left fun c hc => Condition.asked_of_not_negated (h c hc)).trans (List.map_id _)
  rw [asked, hmap]

/-- Nothing of what is read is a window. -/
theorem windowed_of_isListable (h : ∀ c ∈ spec.conditions, c.isListable = true) (lex : Lexicon)
    (words : List Word) : lex.windowed spec words = words := by
  have hany : spec.conditions.any Condition.isWindow = false :=
    List.any_eq_false.mpr fun c hc => by simp [(Condition.isOnePredicate_of_isListable (h c hc)).unwindowed]
  have hnone : RankWindow.ofConditions spec.conditions = none := by
    simp [RankWindow.ofConditions, hany]
  rw [Lexicon.windowed, hnone, Option.elim_none]

end SearchSpec

/-- A number is left by two ranges that meet if it is in both. -/
theorem Bounds.contains_meet (r s : Bounds) (n : Nat) :
    (r.meet s).elim false (·.contains n) = (r.contains n && s.contains n) := by
  rw [← contains_narrow, meet]
  split
  · next hempty => exact (contains_of_isEmpty hempty n).symm
  · rfl

namespace Lexicon

variable {lex : Lexicon}

/-! ## §2 Ranges -/

/-- The word has the numbers that are left by the ranges. -/
def liesWithin (lex : Lexicon) (w : Word) (b : ListBounds) : Bool :=
  b.anagrams.contains (lex.vocabulary.words.countP fun v => v.isPerm w) &&
    b.vowels.contains w.vowelCount && b.distinct.contains w.distinctCount &&
    b.points.contains (lex.bag.pointValue w)

/-- What a condition says of a word besides the list that it may be. -/
def meetsRange (lex : Lexicon) (w : Word) (c : Condition) : Bool := c.isList || lex.readsIndexed w c

/-- A range of one number is met with another: the rest of the word's numbers do not matter. -/
theorem liesWithin_meet {w : Word} {b : ListBounds} {held asked : Bounds} {n : Nat}
    {set : Bounds → ListBounds} (others : Bool)
    (hheld : lex.liesWithin w b = (others && held.contains n))
    (hset : ∀ r, lex.liesWithin w (set r) = (others && r.contains n)) :
    ((held.meet asked).map set).elim false (lex.liesWithin w) =
      (lex.liesWithin w b && asked.contains n) := by
  rw [hheld, Bool.and_assoc, ← held.contains_meet asked n]
  cases held.meet asked with
  | none => exact (Bool.and_false others).symm
  | some met => exact hset met

/-- **A range narrowed by a condition** holds what it held and what is asked of it. -/
theorem liesWithin_narrow {c : Condition} (hc : c.isListable = true) (w : Word) (b : ListBounds) :
    (b.narrow c).elim false (lex.liesWithin w) = (lex.liesWithin w b && lex.meetsRange w c) := by
  have hdescribes (hlist : c.isList = false) (hfits : c.fits w = true)
      (hsatisfies : lex.satisfies w c = true) : lex.meetsRange w c = lex.describes w c := by
    rw [meetsRange, hlist, Bool.false_or, readsIndexed_eq_describes hfits hsatisfies]
  let anagrams := lex.vocabulary.words.countP fun v => v.isPerm w
  cases c with
  | inList words negated => exact (Bool.and_true _).symm
  | anagrams r =>
    rw [hdescribes rfl rfl rfl]
    refine liesWithin_meet (b.vowels.contains w.vowelCount &&
      b.distinct.contains w.distinctCount && b.points.contains (lex.bag.pointValue w)) ?_ fun r => ?_
    -- The other three ranges stay as they are.
    all_goals
      simp only [liesWithin]
      ac_rfl
  | vowels r =>
    rw [hdescribes rfl rfl rfl]
    refine liesWithin_meet (b.anagrams.contains anagrams &&
      b.distinct.contains w.distinctCount && b.points.contains (lex.bag.pointValue w)) ?_ fun r => ?_
    all_goals
      simp only [liesWithin]
      ac_rfl
  | distinct r =>
    rw [hdescribes rfl rfl rfl]
    refine liesWithin_meet (b.anagrams.contains anagrams &&
      b.vowels.contains w.vowelCount && b.points.contains (lex.bag.pointValue w)) ?_ fun r => ?_
    all_goals
      simp only [liesWithin]
      ac_rfl
  | points r =>
    rw [hdescribes rfl rfl rfl]
    refine liesWithin_meet (b.anagrams.contains anagrams &&
      b.vowels.contains w.vowelCount && b.distinct.contains w.distinctCount) ?_ fun r => ?_
    all_goals
      simp only [liesWithin]
      ac_rfl
  | _ => cases hc

/-- **The ranges that the conditions leave** are those that all of them leave. -/
theorem liesWithin_foldlM {conditions : List Condition}
    (hconditions : ∀ c ∈ conditions, c.isListable = true) (w : Word) (b : ListBounds) :
    (conditions.foldlM ListBounds.narrow b).elim false (lex.liesWithin w) =
      (lex.liesWithin w b && conditions.all (lex.meetsRange w)) := by
  induction conditions generalizing b with
  | nil => exact (Bool.and_true _).symm
  | cons c conditions ih =>
    have hnarrow := lex.liesWithin_narrow (hconditions c (by simp)) w b
    rw [List.foldlM_cons, List.all_cons, ← Bool.and_assoc, ← hnarrow]
    cases b.narrow c with
    | none => rfl
    | some narrowed => exact ih (fun d hd => hconditions d (by simp [hd])) narrowed

/-- Every word of which a row is stored lies within the ranges that nothing narrows. -/
theorem IsSound.liesWithin (h : lex.IsSound) (hrows : lex.StoresItsRows) {w : Word}
    (hw : w ∈ lex.vocabulary.words) : lex.liesWithin w {} = true := by
  obtain ⟨store, t, definitions, references, hstore, htable, hlist⟩ := hrows
  have hfits := fitsColumns_of_toList hlist
  let row := (lex.rowSources definitions references).rowFor w
  have hrow : row.FitsColumns := hfits w hw
  have hvowels : w.vowelCount ≤ maxWord32 := hrow row.vowels (by simp [Row.numbers])
  have hdistinct : w.distinctCount ≤ maxWord32 := hrow row.distinct (by simp [Row.numbers])
  have hpoints : lex.bag.pointValue w ≤ maxWord32 := hrow row.points (by simp [Row.numbers])
  have hanagrams : lex.vocabulary.words.countP (fun v => v.isPerm w) ≤ maxWord32 := by
    rw [← h.anagrams_rowFor hfits hw]
    exact hrow row.anagrams (by simp [Row.numbers])
  simp [Lexicon.liesWithin, Bounds.contains, Bounds.atLeast, hanagrams, hvowels, hdistinct, hpoints]

/-! ## §3 Lists -/

/-- **A list asks for its words**, in upper case, that the lexicon accepts. -/
theorem IsSound.mem_listed_iff (h : lex.IsSound) {words : List String} {w : Word} :
    w ∈ lex.listed words ↔
      w ∈ lex.vocabulary.words ∧ lex.readsIndexed w (.inList words false) = true := by
  have hreads : lex.readsIndexed w (.inList words false) =
      words.any fun text => w == Word.upper (Word.ofText text) := by
    rw [readsIndexed_eq_describes rfl rfl]
    simp only [describes, Word.ofText_toUpper, Bool.bne_false]
  rw [hreads, List.any_eq_true, listed, List.mem_filter, List.mem_map]
  constructor
  -- The words of the list are in capitals, as the words accepted are.
  · rintro ⟨⟨text, htext, rfl⟩, haccepts⟩
    have hmem := (h.vocabulary.contains_iff _).mp haccepts
    rw [Word.upper_upper] at hmem
    exact ⟨hmem, text, htext, beq_self_eq_true _⟩
  · rintro ⟨hw, text, htext, heq⟩
    refine ⟨⟨text, htext, (beq_iff_eq.mp heq).symm⟩, ?_⟩
    rw [accepts, h.vocabulary.contains_iff, h.upper_eq hw]
    exact hw

/-- The words on all lists, if there is a list. -/
theorem mem_joinLists_iff {lists : List (List Word)} (hne : lists ≠ []) {w : Word} :
    w ∈ joinLists true lists ↔ ∀ list ∈ lists, w ∈ list := by
  cases lists with
  | nil => exact absurd rfl hne
  | cons first rest => simp [joinLists]

theorem ascending_listWords (lex : Lexicon) (spec : SearchSpec) :
    Word.Ascending (lex.listWords spec) := by
  apply pairwise_dropRepeats id
  exact pairwise_mergeSort_on id _

theorem mem_listWords_iff {spec : SearchSpec} {w : Word} :
    w ∈ lex.listWords spec ↔
      w ∈ joinLists spec.conjunction (spec.conditions.filterMap fun
        | .inList words _ => some (lex.listed words)
        | _ => none) := by
  have hdrop := mem_map_dropRepeats id (Word.sort (joinLists spec.conjunction
    (spec.conditions.filterMap fun
      | .inList words _ => some (lex.listed words)
      | _ => none))) w
  rw [List.map_id, List.map_id, Word.mem_sort] at hdrop
  exact hdrop

/-- What a condition says of a word as a list, negated or not; any other says nothing. -/
def onList (lex : Lexicon) (w : Word) (c : Condition) : Bool :=
  !c.isList || lex.readsIndexed w c.asked

/-- A condition is read as a list or as a range. -/
theorem readsIndexed_asked (w : Word) (c : Condition) :
    lex.readsIndexed w c.asked = (lex.meetsRange w c && lex.onList w c) := by
  cases c with
  | inList words negated => exact (Bool.true_and _).symm
  | _ => exact (Bool.and_true _).symm

/-- **The words of all lists** of a conjunction, in order. -/
theorem IsSound.listWords_eq (h : lex.IsSound) {spec : SearchSpec}
    (hconjunction : spec.conjunction = true) (hlist : ∃ c ∈ spec.conditions, c.isList = true) :
    lex.listWords spec =
      lex.vocabulary.words.filter fun w => spec.conditions.all (lex.onList w) := by
  refine (lex.ascending_listWords spec).eq_of_mem_iff
    (h.vocabulary.forward.sorted.ascending_words.filter _) fun w => ?_
  obtain ⟨c, hc, hcList⟩ := hlist
  obtain ⟨words, negated, rfl⟩ : ∃ words negated, c = .inList words negated := by
    cases c with
    | inList words negated => exact ⟨words, negated, rfl⟩
    | _ => cases hcList
  rw [mem_listWords_iff, hconjunction, mem_joinLists_iff, List.mem_filter, List.all_eq_true]
  · constructor
    -- A word on all lists is on this one, and that makes it a word of the graph.
    · intro hall
      have hon : ∀ words negated, .inList words negated ∈ spec.conditions →
          w ∈ lex.listed words :=
        fun words negated hmem => hall _ (List.mem_filterMap.mpr ⟨_, hmem, rfl⟩)
      refine ⟨(h.mem_listed_iff.mp (hon words negated hc)).1, ?_⟩
      intro d hd
      cases d with
      | inList words negated => exact (h.mem_listed_iff.mp (hon words negated hd)).2
      | _ => rfl
    · rintro ⟨hw, hall⟩ list hmem
      obtain ⟨d, hd, hsome⟩ := List.mem_filterMap.mp hmem
      cases d with
      | inList words negated =>
        cases hsome
        exact h.mem_listed_iff.mpr ⟨hw, hall _ hd⟩
      | _ => cases hsome
  · exact List.ne_nil_of_mem (List.mem_filterMap.mpr ⟨_, hc, rfl⟩)

/-! ## §4 Counts of anagrams -/

/-- **The lexicon tells how many words have the letters** of each of its words, from the rows of the
store or of the cache. -/
structure TellsAnagrams (lex : Lexicon) : Prop where
  caches : lex.CachesItsRows
  told : ∀ w ∈ lex.vocabulary.words,
    (rowIn lex.store w).elim (lex.anagramCounts.count w) (·.anagrams) =
      lex.vocabulary.words.countP fun v => v.isPerm w

theorem TellsAnagrams.fst_anagrams (h : lex.TellsAnagrams) {w : Word}
    (hw : w ∈ lex.vocabulary.words) :
    (lex.anagrams w).1 = lex.vocabulary.words.countP fun v => v.isPerm w := by
  rw [← h.told w hw, ← h.caches.fst_row]
  rfl

/-- Telling of one word leaves its row in the cache and changes nothing else. -/
theorem TellsAnagrams.snd_anagrams (h : lex.TellsAnagrams) (w : Word) :
    (lex.anagrams w).2.TellsAnagrams ∧ ∃ cache, (lex.anagrams w).2 = { lex with cache } := by
  have hrow : (lex.anagrams w).2.CachesItsRows := h.caches.row w
  obtain ⟨cache, hcache⟩ : ∃ cache, (lex.anagrams w).2 = { lex with cache } := by
    rcases lex.snd_row w with heq | ⟨row, -, heq⟩
    · exact ⟨lex.cache, heq⟩
    · exact ⟨_, heq⟩
  refine ⟨⟨hrow, ?_⟩, cache, hcache⟩
  rw [hcache]
  exact h.told

/-- **The words that the ranges leave.** Their rows are asked for on the way, and only the cache is
changed by that. -/
theorem TellsAnagrams.narrowWords (h : lex.TellsAnagrams) (b : ListBounds) {words : List Word}
    (hwords : ∀ w ∈ words, w ∈ lex.vocabulary.words) :
    (lex.narrowWords b words).1 = words.filter (lex.liesWithin · b) ∧
      ∃ cache, (lex.narrowWords b words).2 = { lex with cache } := by
  induction words generalizing lex with
  | nil => exact ⟨rfl, lex.cache, rfl⟩
  | cons w words ih =>
    -- Asking for the anagrams changes the cache at most, and this changes no answer.
    have htold := h.fst_anagrams (hwords w (by simp))
    obtain ⟨htells, cache, hcache⟩ := h.snd_anagrams w
    generalize hasked : lex.anagrams w = asked at *
    obtain ⟨anagrams, askedLex⟩ := asked
    dsimp only at htold htells hcache
    subst hcache
    obtain ⟨hkept, cache', hcache'⟩ := ih htells fun v hv => hwords v (by simp [hv])
    generalize hrest : ({ lex with cache } : Lexicon).narrowWords b words = rest at *
    obtain ⟨kept, restLex⟩ := rest
    dsimp only at hkept hcache'
    subst hcache'
    rw [Lexicon.narrowWords, hasked]
    dsimp only
    rw [hrest, htold, List.filter_cons, hkept]
    constructor
    · show (if lex.liesWithin w b = true then _ else _ : List Word × Lexicon).1 = _
      split <;> rfl
    · refine ⟨cache', ?_⟩
      show (if lex.liesWithin w b = true then _ else _ : List Word × Lexicon).2 = _
      split <;> rfl

/-- **A store of the rows tells** how many words have the letters of a word. -/
theorem IsSound.tellsAnagrams (h : lex.IsSound) (hcaches : lex.CachesItsRows)
    (hrows : lex.StoresItsRows) : lex.TellsAnagrams := by
  obtain ⟨store, t, definitions, references, hstore, htable, hlist⟩ := hrows
  refine ⟨hcaches, fun w hw => ?_⟩
  have hne : w.isEmpty = false := by
    rw [List.isEmpty_eq_false_iff]
    rintro rfl
    exact Edges.nil_notMem_words _ hw
  -- The store has the row of each word of the graph, with the number of its anagrams.
  have hrow : t.row? w = some ((lex.rowSources definitions references).rowFor w) := by
    apply (AttributeTable.mem_toList ((lex.rowSources definitions references).rowFor w)).mp
    rw [hlist, RowSources.rows_eq_map]
    exact List.mem_map_of_mem hw
  have hrowIn : rowIn lex.store w = some ((lex.rowSources definitions references).rowFor w) := by
    rw [rowIn, hne, hstore, h.upper_eq hw]
    simp [AttributeStore.stored?, htable, hrow]
  rw [hrowIn, Option.elim_some]
  exact h.anagrams_rowFor (fitsColumns_of_toList hlist) hw

/-! ## §5 The two searches -/

/-- **What a search by lists finds**: the words on all lists that lie in all ranges, in order. -/
theorem searchLists_eq_filter (h : lex.IsSound) (hrows : lex.StoresItsRows)
    (htells : lex.TellsAnagrams) {spec : SearchSpec} (hconjunction : spec.conjunction = true)
    (hconditions : ∀ c ∈ spec.conditions, c.isListable = true)
    (hlist : ∃ c ∈ spec.conditions, c.isList = true) :
    (lex.searchLists spec).1 =
      lex.vocabulary.words.filter fun w => spec.asked.conditions.all (lex.readsIndexed w) := by
  -- A word is within the ranges and on the lists just if it meets each condition.
  have hboth (w : Word) (hw : w ∈ lex.vocabulary.words) :
      spec.asked.conditions.all (lex.readsIndexed w) =
        ((ListBounds.ofConditions spec.conditions).elim false (lex.liesWithin w) &&
          spec.conditions.all (lex.onList w)) := by
    rw [ListBounds.ofConditions, liesWithin_foldlM hconditions, h.liesWithin hrows hw,
      Bool.true_and, SearchSpec.asked, List.all_map, Bool.eq_iff_iff, Bool.and_eq_true]
    simp only [List.all_eq_true, Function.comp_apply, readsIndexed_asked, Bool.and_eq_true]
    exact forall₂_and
  rw [List.filter_congr hboth, searchLists]
  cases ListBounds.ofConditions spec.conditions with
  | none => simp
  | some b =>
    dsimp only
    rw [h.listWords_eq hconjunction hlist, (htells.narrowWords b ?_).1, List.filter_filter]
    · rfl
    · exact fun w hw => (List.mem_filter.mp hw).1

/-- **What a planned search finds**, if the store is not asked too much; otherwise it finds nothing. -/
theorem search_eq_filter (h : lex.IsSound) (hspelled : lex.IsSpelled) (hrows : lex.StoresItsRows)
    {spec : SearchSpec} (hconjunction : spec.conjunction = true)
    (hconditions : ∀ c ∈ spec.conditions, c.isListable = true) :
    (lex.search spec true).1 =
      if lex.fitsStore (Plan.ofSpec true spec) then
        lex.vocabulary.words.filter fun w => spec.conditions.all (lex.readsIndexed w)
      else [] := by
  have hplan : Plan.ofSpec lex.isIndexed spec = Plan.ofSpec true spec := by rw [hrows.isIndexed]
  have hnoLax : spec.conditions.countP Condition.isLax = 0 :=
    List.countP_eq_zero.mpr fun c hc => by simp [(Condition.isOnePredicate_of_isListable (hconditions c hc)).strict]
  rw [fst_search]
  split
  · next hfits =>
    rw [h.find_eq (readsSoundly_readsIndexed hrows.isIndexed)
      (fun _ w _ => .inr (Nat.le_trans (Nat.le_of_eq hnoLax) (Nat.zero_le 1)))
      (planAnswers_of_fitsStore h hspelled hrows
        (fun c hc => (Condition.isOnePredicate_of_isListable (hconditions c hc)).modest) (hplan ▸ hfits)),
      SearchSpec.windowed_of_isListable hconditions]
    simp only [SearchSpec.holdsBy, hconjunction, Bool.not_true, Bool.false_and, Bool.false_eq_true,
      if_false]
  · next hrefused =>
    rw [Bool.not_eq_true, ← hplan] at hrefused
    -- A conjunction that asks for anything is planned as steps, without branches.
    obtain ⟨steps, window, hsteps⟩ :
        ∃ steps window, Plan.ofSpec lex.isIndexed spec = .all steps window := by
      simp only [Plan.ofSpec, hconjunction, Bool.not_true, Bool.false_and, Bool.false_eq_true,
        if_false] at hrefused ⊢
      split at hrefused
      · cases hrefused
      · exact ⟨_, _, rfl⟩
    exact find_of_refused hsteps hrefused true

end Lexicon

/-! ## §6 Few conditions -/

/-- **A range list that is narrowed** bounds the attributes it bounded, and one more at most. -/
theorem RangeList.attributes_narrow {ranges ranges' : RangeList} {a : RangedAttribute} {r : Bounds}
    (h : ranges.narrow a r = some ranges') :
    ranges'.map (·.1) = ranges.map (·.1) ∨ ranges'.map (·.1) = ranges.map (·.1) ++ [a] := by
  induction ranges generalizing ranges' with
  | nil =>
    unfold narrow at h
    split at h
    · cases h
    · cases h
      exact .inr rfl
  | cons first rest ih =>
    unfold narrow at h
    split at h
    -- An attribute asked for already keeps its place; a new one comes last.
    · obtain ⟨both, -, rfl⟩ := Option.map_eq_some_iff.mp h
      exact .inl rfl
    · obtain ⟨rest', hrest, rfl⟩ := Option.map_eq_some_iff.mp h
      rcases ih hrest with hsame | hmore
      · exact .inl (congrArg (first.1 :: ·) hsame)
      · exact .inr (congrArg (first.1 :: ·) hmore)

/-- A draft of so many conditions at most, all of them read by a search by lists. -/
structure Draft.IsListed (d : Draft) (n : Nat) : Prop where
  others : ∀ c ∈ d.others, c.isListable = true
  attributes : ∀ a ∈ d.ranges.map (·.1), ∀ r, (a.condition r).isListable = true
  size : d.others.length + (d.ranges.map (·.1)).length ≤ n

theorem Draft.IsListed.add {d d' : Draft} {n : Nat} (h : d.IsListed n) {c : Condition}
    (hc : c.isListable = true) (hadd : d.add c = some d') : d'.IsListed (n + 1) := by
  have hsize := h.size
  have hupper : c.upper.isListable = true := by
    rw [← hc]
    cases c <;> rfl
  cases hr : c.upper.ranged? with
  | some range =>
    obtain ⟨a, r⟩ := range
    rw [Draft.add_of_ranged hr] at hadd
    obtain ⟨ranges, hnarrow, rfl⟩ := Option.map_eq_some_iff.mp hadd
    have ha (s : Bounds) : (a.condition s).isListable = true := by
      rw [Condition.eq_of_ranged? hr] at hupper
      rw [← hupper]
      cases a <;> rfl
    rcases RangeList.attributes_narrow hnarrow with hsame | hmore
    · refine ⟨h.others, ?_, ?_⟩
      all_goals rw [hsame]
      · exact h.attributes
      · exact Nat.le_succ_of_le hsize
    · refine ⟨h.others, ?_, ?_⟩
      all_goals rw [hmore]
      · intro b hb
        rcases List.mem_append.mp hb with hb | hb
        · exact h.attributes b hb
        · rw [List.mem_singleton.mp hb]
          exact ha
      · rw [List.length_append, List.length_singleton, ← Nat.add_assoc]
        exact Nat.succ_le_succ hsize
  | none =>
    -- What is no range implies no length either, so that the ranges stay as they are.
    rw [Draft.add_of_not_ranged hr, Draft.hintedRanges, (Condition.isOnePredicate_of_isListable hc).unhinted] at hadd
    cases hadd
    refine ⟨?_, h.attributes, ?_⟩
    all_goals dsimp only
    · split
      · exact h.others
      · intro d hd
        rcases List.mem_append.mp hd with hd | hd
        · exact h.others d hd
        · rw [List.mem_singleton.mp hd]
          exact hupper
    · split
      · omega
      · rw [List.length_append, List.length_singleton]
        omega

theorem Draft.IsListed.foldlM_add {conditions : List Condition}
    (hconditions : ∀ c ∈ conditions, c.isListable = true) {d d' : Draft} {n : Nat}
    (h : d.IsListed n) (hadd : conditions.foldlM Draft.add d = some d') :
    d'.IsListed (n + conditions.length) := by
  induction conditions generalizing d n with
  | nil =>
    cases hadd
    exact h
  | cons c conditions ih =>
    rw [List.foldlM_cons] at hadd
    obtain ⟨added, hc, hadd⟩ := Option.bind_eq_some_iff.mp hadd
    have hrest := ih (fun c hc => hconditions c (by simp [hc])) (h.add (hconditions c (by simp)) hc)
      hadd
    rw [List.length_cons, Nat.add_comm conditions.length, ← Nat.add_assoc]
    exact hrest

/-- **A normal form is no longer** than what is read by a search by lists, and is read as well. -/
theorem SearchSpec.normalise_of_isListable {spec normal : SearchSpec}
    (hconditions : ∀ c ∈ spec.conditions, c.isListable = true)
    (h : spec.normalise = some normal) :
    (∀ c ∈ normal.conditions, c.isListable = true) ∧
      normal.conditions.length ≤ spec.conditions.length := by
  obtain ⟨d, hd, rfl⟩ := Option.map_eq_some_iff.mp h
  -- Narrowing never makes the list of conditions longer than the one given.
  have hempty : Draft.empty.IsListed 0 :=
    ⟨List.forall_mem_nil _, List.forall_mem_nil _, Nat.le_refl 0⟩
  have hlisted := hempty.foldlM_add hconditions hd
  constructor
  · intro c hc
    rcases List.mem_append.mp hc with hc | hc
    · exact hlisted.others c hc
    · obtain ⟨⟨a, r⟩, hmem, rfl⟩ := List.mem_map.mp hc
      exact hlisted.attributes a (List.mem_map_of_mem hmem) r
  · have hsize := hlisted.size
    rw [List.length_map, Nat.zero_add] at hsize
    simpa [SearchSpec.all, Draft.conditions] using hsize

/-- **A thousand conditions are needed**, nearly, or a list that is too long, to ask too much. -/
theorem Lexicon.fitsStore_of_isListable (lex : Lexicon) {spec : SearchSpec}
    (hconjunction : spec.conjunction = true)
    (hconditions : ∀ c ∈ spec.conditions, c.isListable = true)
    (hlength : spec.conditions.length ≤ 994)
    (hlists : ∀ c ∈ spec.conditions, c.fitsLists = true) :
    lex.fitsStore (Plan.ofSpec true spec) = true := by
  simp only [Plan.ofSpec, hconjunction, Bool.not_true, Bool.false_and, Bool.false_eq_true, if_false,
    Plan.conjunction]
  cases hnormal : spec.normalise with
  | none => rfl
  | some normal =>
    obtain ⟨hlistable, hshort⟩ := SearchSpec.normalise_of_isListable hconditions hnormal
    have hwindow : normal.conditions.filter (!·.isWindow) = normal.conditions :=
      List.filter_eq_self.mpr fun c hc => by simp [(Condition.isOnePredicate_of_isListable (hlistable c hc)).unwindowed]
    dsimp only
    rw [hwindow]
    by_cases hne : normal.conditions = []
    · rw [hne]
      rfl
    · have hplanned : ∀ c ∈ normal.conditions, c.IsOnePredicate :=
        fun c hc => Condition.isOnePredicate_of_isListable (hlistable c hc)
      have hpredicates : (RowQuery.ofConditions normal.conditions).length =
          normal.conditions.length := by
        rw [RowQuery.ofConditions, List.length_flatMap,
          List.map_congr_left fun c hc => (hplanned c hc).single]
        simp
      rw [Plan.steps_of_phase_index hne fun c hc => (hplanned c hc).phase]
      -- One step, on no candidates.
      have hasked : isAskable (RowQuery.ofConditions normal.conditions) none = true := by
        apply isAskable_ofConditions (hpredicates ▸ Nat.le_trans hshort hlength) _ (by simp)
        exact fun c hc => ⟨(hplanned c hc).phase, (hplanned c hc).modest,
          fitsLists_of_comesFrom hlists (SearchSpec.comesFrom_of_normalise hnormal c hc)⟩
      dsimp only
      rw [fitsStore, Plan.branches, List.all_cons, fitsSteps_index, hasked]
      rfl

namespace Engine

/-! ## §7 Engines -/

/-- **A search by lists finds what a planned search finds.** After any history without images, with a
store of the rows that are built for the lexicon, the words that a conjunction of lists and ranges
finds are those on all lists that lie in all ranges, in order. A planned search finds the same words
if the lists are not negated, provided that the store is not asked too much, as it is not by 994
conditions or fewer with no list that is too long; what asks too much finds nothing. **A negation of a list does not matter** to a
search by lists. -/
theorem searchLists_eq_search {lex₀ : Lexicon} (hfresh : lex₀.IsFresh) {steps : List LexiconStep}
    (htextual : ∀ step ∈ steps, step.isTextual = true)
    (hrows : (lex₀.runHistory steps).StoresItsRows) {e : Engine} {name : String}
    (he : e.lexicon? name = some (lex₀.runHistory steps)) {spec : SearchSpec}
    (hconjunction : spec.conjunction = true)
    (hconditions : ∀ c ∈ spec.conditions, c.isListable = true)
    (hlist : ∃ c ∈ spec.conditions, c.isList = true) :
    (e.searchLists name spec).1 = ((lex₀.runHistory steps).vocabulary.words.filter fun w =>
        spec.asked.conditions.all ((lex₀.runHistory steps).readsIndexed w)) ∧
    (e.search name spec.asked true).1 =
      (if (lex₀.runHistory steps).fitsStore (Plan.ofSpec true spec.asked) then
        (e.searchLists name spec).1 else []) ∧
    (spec.conditions.length ≤ 994 → (∀ c ∈ spec.conditions, c.fitsLists = true) →
      (lex₀.runHistory steps).fitsStore (Plan.ofSpec true spec.asked) = true) ∧
    ((∀ c ∈ spec.conditions, c.isNegated = false) → spec.asked = spec) := by
  have hsound := hfresh.isSound.runHistory steps
  have hspelled := hfresh.isSpelled.runHistory hfresh.isSound htextual
  obtain ⟨_, _, hcreate, -⟩ := id hfresh
  have hcaches := (Lexicon.cachesItsRows_of_empty (Lexicon.view_of_create hcreate).2).runHistory steps
  generalize lex₀.runHistory steps = lex at *
  -- Both searches read the rows of the store, so both keep what the conditions say.
  have htells := hsound.tellsAnagrams hcaches hrows
  have hfound : (e.searchLists name spec).1 =
      lex.vocabulary.words.filter fun w => spec.asked.conditions.all (lex.readsIndexed w) := by
    rw [← Lexicon.searchLists_eq_filter hsound hrows htells hconjunction hconditions hlist,
      searchLists, ask, he]
  have hasked := SearchSpec.forall_asked hconditions
  have hall : spec.asked.conjunction = true := hconjunction
  refine ⟨hfound, ?_, ?_, SearchSpec.asked_of_not_negated⟩
  · rw [hfound, ← Lexicon.search_eq_filter hsound hspelled hrows hall hasked, search, ask, he]
  · intro hlength hlists
    apply lex.fitsStore_of_isListable hall hasked
    · rw [SearchSpec.asked, List.length_map]
      exact hlength
    · intro c hc
      obtain ⟨d, hd, rfl⟩ := List.mem_map.mp hc
      rw [Condition.fitsLists_asked]
      exact hlists d hd

/-- A lexicon without words. -/
def wordless : Lexicon := (Lexicon.create "" Lexicon.twoLetters).toOption.get rfl

theorem isFresh_wordless : wordless.IsFresh := ⟨"", Lexicon.twoLetters, rfl, by decide⟩

/-- `AT` and `TA` are imported, and a store of their rows is attached. -/
def stocking : List LexiconStep := wordless.stock [[0x41, 0x54], [0x54, 0x41]]

theorem storesItsRows_stocking : (wordless.runHistory stocking).StoresItsRows :=
  isFresh_wordless.isSound.storesItsRows_stock _ (by decide +kernel) (by decide +kernel)

/-- An engine with these words. -/
def stocked : Engine :=
  (Engine.create Lexicon.twoLetters).put "" (wordless.runHistory stocking)

theorem lexicon?_stocked : stocked.lexicon? "" = some (wordless.runHistory stocking) :=
  Lexicon.lexicon?_put (Engine.create Lexicon.twoLetters) "" _

/-- Words with one vowel that are on a list of both words and on a list of `TA`, or not on it. -/
def twoLists (negated : Bool) : SearchSpec :=
  .all [.inList ["at", "TA", "TT"] false, .vowels ⟨1, 1⟩, .inList ["ta"] negated]

/-- `TA` is on both lists, and both searches find it. -/
theorem searchLists_of_two_lists :
    (stocked.searchLists "" (twoLists false)).1 = [[0x54, 0x41]] ∧
      (stocked.search "" (twoLists false) true).1 = [[0x54, 0x41]] := by
  obtain ⟨hfound, hsearch, hfits, hasked⟩ := searchLists_eq_search isFresh_wordless
    (Lexicon.isTextual_stock _ _) storesItsRows_stocking lexicon?_stocked
    (rfl : (twoLists false).conjunction = true) (by decide) (by decide)
  have htwo : (stocked.searchLists "" (twoLists false)).1 = [[0x54, 0x41]] := by
    rw [hfound]
    decide +kernel
  rw [if_pos (hfits (by decide) (by decide +kernel)), hasked (by decide)] at hsearch
  exact ⟨htwo, hsearch.trans htwo⟩

/-- With the second list negated, a search by lists still finds `TA`, which is on it, while a planned
search finds `AT`, which is not. -/
theorem searchLists_of_negated_list :
    wordless.IsFresh ∧ (∀ step ∈ stocking, step.isTextual = true) ∧
      (wordless.runHistory stocking).StoresItsRows ∧
      stocked.lexicon? "" = some (wordless.runHistory stocking) ∧
      (twoLists true).conjunction = true ∧
      (∀ c ∈ (twoLists true).conditions, c.isListable = true) ∧
      (∃ c ∈ (twoLists true).conditions, c.isList = true ∧ c.isNegated = false) ∧
      (stocked.searchLists "" (twoLists true)).1 = [[0x54, 0x41]] ∧
      (stocked.search "" (twoLists true) true).1 = [[0x41, 0x54]] := by
  have htextual := Lexicon.isTextual_stock wordless [[0x41, 0x54], [0x54, 0x41]]
  have hsound := isFresh_wordless.isSound.runHistory stocking
  have hspelled := isFresh_wordless.isSpelled.runHistory isFresh_wordless.isSound htextual
  refine ⟨isFresh_wordless, htextual, storesItsRows_stocking, lexicon?_stocked, rfl, by decide,
    by decide, ?_, ?_⟩
  · decide +kernel
  · rw [search, ask, lexicon?_stocked]
    refine (Lexicon.search_eq_filter hsound hspelled storesItsRows_stocking rfl
      (by decide)).trans ?_
    rw [if_pos (Lexicon.fitsStore_of_isListable _ rfl (by decide) (by decide) (by decide +kernel))]
    decide +kernel

end Engine

end WordStudy
