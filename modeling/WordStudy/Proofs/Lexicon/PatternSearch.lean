import WordStudy.Proofs.Lexicon.Candidates
import WordStudy.Proofs.Lexicon.Refusals

/-!
# Searches for one pattern

A search for one pattern goes one of two ways. A wide pattern is left to the rows of a store, which
hold it as a mask against their words; any other pattern, and without a store every one, is left to
the graph. Both ways find the same words, **unless the pattern is too long to be read**: the graph
then finds nothing, and the mask what the signs spell, as long as it is not too long itself.
-/

namespace WordStudy

open Text

/-! ## §1 Wide patterns -/

/-- Whether a pattern is wide does not depend on its case. -/
theorem isWidePattern_toUpper (text : String) :
    isWidePattern text.toUpper = isWidePattern text := by
  have hsign {sign : Char} (h : sign.isAlpha = false) (c : Char) :
      (c.toUpper == sign) = (c == sign) := by
    rw [Bool.eq_iff_iff, beq_iff_eq, beq_iff_eq]
    exact toUpper_eq_iff h c
  have hstar (end? : Option Char) :
      (end?.map Char.toUpper == some '*') = (end? == some '*') := by
    cases end? with
    | none => rfl
    | some c => exact hsign rfl c
  simp only [isWidePattern, String.toUpper, String.toList_map, List.length_map, List.head?_map,
    List.getLast?_map, List.all_map, Function.comp_def, hstar, isAlpha_toUpper,
    hsign (rfl : '*'.isAlpha = false), hsign (rfl : '?'.isAlpha = false),
    hsign (rfl : '.'.isAlpha = false)]

/-- A wide pattern is as long as its mask. -/
theorem utf8ByteSize_ofPattern {signs : List Char} (h : ∀ c ∈ signs, c ∈ Mask.wideSigns) :
    (String.ofList (Mask.ofPattern signs)).utf8ByteSize = signs.length := by
  have hall : ∀ c ∈ Mask.wideSigns, (Mask.maskChar c).utf8Size = 1 :=
    forall_mem_of_all (by decide)
  rw [Mask.ofPattern_of_wide h]
  induction signs with
  | nil => rfl
  | cons c signs ih =>
    rw [List.map_cons, String.ofList_cons, String.utf8ByteSize_append,
      String.utf8ByteSize_singleton, hall c (h c (by simp)), ih fun d hd => h d (by simp [hd]),
      List.length_cons, Nat.add_comm]

/-- A wide pattern begins with a star, and so tells nothing of lengths. -/
theorem lengthHint_of_isWidePattern {text : String} (h : isWidePattern text = true)
    (negated : Bool) : (Condition.pattern text negated).lengthHint = none := by
  have hmem : '*' ∈ text.toList := by
    simp only [isWidePattern, Bool.and_eq_true, beq_iff_eq] at h
    exact List.mem_of_head? h.1.1.2
  have hstar : (text.toList.map Mask.wideToken).any Token.isStar = true :=
    List.any_eq_true.mpr ⟨.star, List.mem_map.mpr ⟨'*', hmem, rfl⟩, rfl⟩
  cases negated with
  | true => rfl
  | false =>
    rw [Condition.lengthHint, Pattern.read, RowQuery.tokens_of_isWidePattern h]
    dsimp only
    split
    · rfl
    · -- It is not too long to be read, but the star leaves the length open.
      rw [Option.bind_some, Pattern.fixedLength?, if_pos hstar]
      rfl

/-- **A pattern that only a store reads**: it is wide, too long for the graph, and not too long for
a mask. -/
def isOverlong (text : String) : Bool :=
  isWidePattern text && Pattern.maxTokens < text.toList.length && text.toList.length ≤ maxMaskSize

/-- The graph finds nothing for a wide pattern that is too long. -/
theorem fits_of_long_wide {text : String} (h : isWidePattern text = true)
    (hlong : Pattern.maxTokens < text.toList.length) (negated : Bool) (w : Word) :
    (Condition.pattern text negated).fits w = false := by
  have hread : Pattern.read text = none := by
    rw [Pattern.read, RowQuery.tokens_of_isWidePattern h]
    simp [hlong]
  show (Pattern.read text).any _ = false
  rw [hread]
  rfl

/-- The graph finds what a wide pattern spells that is not too long. -/
theorem fits_of_short_wide {text : String} (h : isWidePattern text = true)
    (hshort : text.toList.length ≤ Pattern.maxTokens) (negated : Bool) (w : Word) :
    (Condition.pattern text negated).fits w =
      (Pattern.rules.spells (text.toList.map Mask.wideToken) w != negated) := by
  have hmodest : (Condition.pattern text negated).isModest = true := by
    simpa [Condition.isModest, RowQuery.tokens_of_isWidePattern h] using hshort
  show (Pattern.read text).any _ = _
  rw [RowQuery.read_of_isWidePattern h hmodest]
  rfl

namespace Plan

/-! ## §2 Plans for one pattern -/

/-- **The normal form of one pattern** is the pattern in upper case, with the lengths that it
tells. -/
theorem normalise_pattern (text : String) (negated : Bool) :
    (SearchSpec.all [.pattern text negated]).normalise =
      (Draft.empty.hintedRanges (.pattern text.toUpper negated)).map fun ranges =>
        .all (.pattern text.toUpper negated :: ranges.map fun (a, r) => a.condition r) := by
  have hadd := Draft.add_of_not_ranged (c := .pattern text negated) rfl Draft.empty
  rw [SearchSpec.normalise, SearchSpec.all, List.foldlM_cons, hadd]
  -- Nothing is in the draft before, so that the pattern is new to it.
  show ((Draft.empty.hintedRanges (.pattern text.toUpper negated)).map _ >>= _).map _ = _
  cases Draft.empty.hintedRanges (.pattern text.toUpper negated) <;> rfl

/-- Conditions tell nothing but lengths. -/
theorem eq_length_of_hintedRanges {c : Condition} {ranges : RangeList}
    (h : Draft.empty.hintedRanges c = some ranges) : ∀ e ∈ ranges, e.1 = .length := by
  unfold Draft.hintedRanges at h
  split at h
  · next r _ =>
    simp only [Draft.empty, RangeList.narrow] at h
    split at h
    · cases h
    · cases h
      simp
  · cases h
    simp [Draft.empty]

/-- A wide pattern is left to a store. -/
theorem conjunction_of_wide {text : String} (h : isWidePattern text = true) (negated : Bool) :
    conjunction true (.all [.pattern text negated]) =
      some [.index [.pattern text.toUpper negated]] := by
  have hwide : isWidePattern text.toUpper = true := (isWidePattern_toUpper text).trans h
  have hhint := lengthHint_of_isWidePattern hwide negated
  rw [conjunction, normalise_pattern, Draft.hintedRanges, hhint]
  simp [SearchSpec.all, Draft.empty, Condition.isWindow, steps, ofPhase, Condition.phase, hwide,
    stepOf, Condition.isLength]

/-- **Where the graph is walked**, lengths alone are not asked of a store. -/
theorem index_notMem_of_walks {conditions : List Condition} {steps : List PlanStep}
    (h : Plan.steps true conditions = some steps) {c : Condition} (hc : c ∈ conditions)
    (hgraph : c.phase true = .graph)
    (hlengths : ∀ d ∈ conditions, d.phase true = .index → d.isLength = true)
    (asked : List Condition) : .index asked ∉ steps := by
  have hwalks : (ofPhase true .graph conditions).any (!·.isLength) = true := by
    refine List.any_eq_true.mpr ⟨c, mem_ofPhase.mpr ⟨hc, hgraph⟩, ?_⟩
    -- Where there is a store, lengths are left to it and walk no graph.
    cases hlength : c.isLength with
    | false => rfl
    | true =>
      rw [isLength_phase hlength] at hgraph
      cases hgraph
  have hindex : (ofPhase true .index conditions).all Condition.isLength = true := by
    rw [List.all_eq_true]
    intro d hd
    exact hlengths d (mem_ofPhase.mp hd).1 (mem_ofPhase.mp hd).2
  simp only [Plan.steps, hwalks, hindex, Bool.and_self, if_true, List.isEmpty_nil, Bool.not_true,
    Bool.false_eq_true, if_false, Bool.or_true, Option.some.injEq] at h
  subst h
  simp [stepOf]

/-- Any other pattern is left to the graph. -/
theorem index_notMem_of_not_wide {text : String} (h : isWidePattern text = false) {negated : Bool}
    {steps : List PlanStep} (hsteps : conjunction true (.all [.pattern text negated]) = some steps)
    (asked : List Condition) : .index asked ∉ steps := by
  have hnarrow : isWidePattern text.toUpper = false := (isWidePattern_toUpper text).trans h
  rw [conjunction, normalise_pattern] at hsteps
  cases hranges : Draft.empty.hintedRanges (.pattern text.toUpper negated) with
  | none => simp [hranges] at hsteps
  | some ranges =>
    rw [hranges] at hsteps
    have hgraph : (Condition.pattern text.toUpper negated).phase true = .graph := by
      simp [Condition.phase, hnarrow]
    have hmem : .pattern text.toUpper negated ∈
        (SearchSpec.all (.pattern text.toUpper negated ::
          ranges.map fun (a, r) => a.condition r)).conditions.filter (!·.isWindow) := by
      simp [SearchSpec.all, Condition.isWindow]
    apply index_notMem_of_walks hsteps hmem hgraph
    -- Besides the pattern there are only the lengths that it tells.
    intro d hd hphase
    rcases List.mem_cons.mp (List.mem_filter.mp hd).1 with rfl | hd
    · rw [hgraph] at hphase
      cases hphase
    · obtain ⟨⟨a, r⟩, hmem, rfl⟩ := List.mem_map.mp hd
      obtain rfl : a = .length := eq_length_of_hintedRanges hranges _ hmem
      rfl

/-- **One condition** is planned alike, be it a conjunction or a choice. -/
theorem ofSpec_singleton (indexed : Bool) {c : Condition} (h : isAlternative c = true)
    (conjoined : Bool) :
    ofSpec indexed ⟨[c], conjoined⟩ =
      (conjunction indexed (.all [c])).elim nothing fun steps =>
        if conjoined then all steps none else any [steps] none := by
  obtain ⟨hlist, hwindow⟩ : c.isList = false ∧ c.isWindow = false := by
    simpa [isAlternative] using h
  have hnone : RankWindow.ofConditions [c] = none := by
    simp [RankWindow.ofConditions, hwindow]
  cases conjoined with
  | true =>
    have hall : conjunction indexed ⟨[c], true⟩ = conjunction indexed (.all [c]) := rfl
    cases hsteps : conjunction indexed (.all [c]) <;> simp [ofSpec, hall, hsteps, hnone]
  | false =>
    -- The condition is the only branch, and no list bounds it.
    have halternatives : ofSpec indexed ⟨[c], false⟩ = alternatives indexed ⟨[c], false⟩ := by
      simp [ofSpec, h]
    show ofSpec indexed ⟨[c], false⟩ = _
    rw [halternatives]
    cases hsteps : conjunction indexed (.all [c]) <;>
      simp [alternatives, h, hlist, hnone, hsteps]

end Plan

namespace Lexicon

variable {lex : Lexicon}

/-! ## §3 What is found for one pattern -/

/-- The store has no part in what is sound. -/
theorem IsSound.detach (h : lex.IsSound) : lex.detach.IsSound :=
  ⟨h.vocabulary, h.alphabet, h.capitals⟩

/-- Capitals do not change which words are found. -/
theorem map_upper_find (lex : Lexicon) (spec : SearchSpec) (capitals : Bool) :
    (lex.find spec capitals).map Word.upper = lex.find spec true := by
  cases capitals with
  | false => rfl
  | true => simp [find, Function.comp_def, Word.upper_upper]

/-- One condition finds what its steps find. -/
theorem IsSound.find_singleton (h : lex.IsSound) {c : Condition}
    (halternative : Plan.isAlternative c = true) {steps : List PlanStep}
    (hsteps : Plan.conjunction lex.isIndexed (.all [c]) = some steps) {p : Word → Bool}
    (hfinds : lex.Finds (lex.runSteps steps) p) (conjoined : Bool) :
    lex.find ⟨[c], conjoined⟩ true = lex.vocabulary.words.filter p := by
  rw [find, if_pos rfl, Plan.ofSpec_singleton lex.isIndexed halternative, hsteps]
  cases conjoined with
  | true => exact hfinds
  | false =>
    show (unite ([steps].flatMap lex.runSteps)).map Word.upper = _
    -- What is united is in order, as the words are, and was found by the only branch.
    apply (ascending_unite _).eq_of_mem_iff (h.vocabulary.forward.sorted.ascending_words.filter p)
    intro w
    rw [mem_map_upper_unite, List.flatMap_singleton, hfinds]
    rfl

/-- **Where the reading of a pattern is that of the graph**, and no store is asked, a search finds
the words that fit. -/
theorem IsSound.find_pattern_of_reads (h : lex.IsSound) {holds : Word → Condition → Bool}
    (hreads : lex.ReadsSoundly holds) {text : String} {negated : Bool}
    (hfits : ∀ w, holds w (.pattern text negated) = (Condition.pattern text negated).fits w)
    (conjoined : Bool)
    (hindex : lex.PlanAnswers holds
      (Plan.ofSpec lex.isIndexed ⟨[.pattern text negated], conjoined⟩)) :
    lex.find ⟨[.pattern text negated], conjoined⟩ true =
      lex.vocabulary.words.filter (Condition.pattern text negated).fits := by
  rw [h.find_eq hreads (fun _ _ _ => .inr (by simp [Condition.isLax])) hindex]
  show lex.vocabulary.words.filter _ = _
  congr 1
  funext w
  rw [← hfits]
  cases conjoined <;>
    simp [SearchSpec.holdsBy, Plan.isAlternative, Condition.isList, Condition.isWindow]

/-- Without a store, the graph finds the words that fit. -/
theorem IsSound.find_pattern_of_unindexed (h : lex.IsSound) (hstore : lex.store = none)
    (text : String) (negated conjoined : Bool) :
    lex.find ⟨[.pattern text negated], conjoined⟩ true =
      lex.vocabulary.words.filter (Condition.pattern text negated).fits := by
  have hindexed : lex.isIndexed = false := by simp [isIndexed, hstore]
  apply h.find_pattern_of_reads (readsSoundly_reads hstore)
  · intro w
    simp [reads, needsStore, satisfies]
  · exact planAnswers_of_unindexed hindexed _

/-- With a store, it does so for patterns that are not wide. -/
theorem IsSound.find_pattern_of_not_wide (h : lex.IsSound) (hindexed : lex.isIndexed = true)
    {text : String} (hwide : isWidePattern text = false) (negated conjoined : Bool) :
    lex.find ⟨[.pattern text negated], conjoined⟩ true =
      lex.vocabulary.words.filter (Condition.pattern text negated).fits := by
  apply h.find_pattern_of_reads (readsSoundly_readsIndexed hindexed)
  · exact fun w => readsIndexed_eq_fits rfl rfl
  · -- No step of its plan asks the store.
    rintro _ hsteps before asked behind rfl
    rw [hindexed, Plan.ofSpec_singleton true rfl] at hsteps
    cases hconjunction : Plan.conjunction true (.all [.pattern text negated]) with
    | none => simp [hconjunction, Plan.branches] at hsteps
    | some steps' =>
      have heq : before ++ .index asked :: behind = steps' := by
        cases conjoined <;> simpa [hconjunction, Plan.branches] using hsteps
      have hasked : .index asked ∈ steps' := heq ▸ by simp
      exact absurd hasked (Plan.index_notMem_of_not_wide hwide hconjunction asked)

/-! ## §4 Masks -/

/-- **The rows that are found for a wide pattern** are those of the words that its signs spell, as
long as its mask is not too long. -/
theorem findRows_of_wide (h : lex.IsSound) (hrows : lex.StoresItsRows) {text : String}
    (hwide : isWidePattern text = true) (hshort : text.toList.length ≤ maxMaskSize)
    (negated : Bool) :
    lex.findRows [.pattern text negated] none =
      lex.vocabulary.words.filter fun w =>
        Pattern.rules.spells (text.toList.map Mask.wideToken) w != negated := by
  obtain ⟨store, t, definitions, references, hstore, htable, hlist⟩ := hrows
  have hsigns := RowQuery.mem_wideSigns_of_isWidePattern hwide
  have hone : (RowQuery.ofConditions [.pattern text negated]).length ≤ 994 := by
    simp [RowQuery.ofConditions, RowQuery.ofCondition]
  have hmasks : ∀ p ∈ RowQuery.ofConditions [.pattern text negated], ∀ row : Row,
      p.meetsLongMask row = false := by
    intro p hp row
    obtain rfl := List.mem_singleton.mp hp
    rw [Predicate.meetsLongMask, utf8ByteSize_ofPattern hsigns, decide_eq_false_iff_not]
    omega
  have hasked : isAskable (RowQuery.ofConditions [.pattern text negated]) none = true := by
    have hsize : (String.ofList (Mask.ofPattern text.toList)).utf8ByteSize ≤ maxTextSize := by
      rw [utf8ByteSize_ofPattern hsigns]
      exact Nat.le_trans hshort (by decide)
    rw [isAskable, Option.isSome_none, fitsDepth_ofConditions hone]
    simpa [fitsTexts, RowQuery.ofConditions, RowQuery.ofCondition, Predicate.fitsTexts] using hsize
  rw [findRows_eq_filter_holds hstore htable hlist hasked hmasks]
  -- Of each row, the mask covers the word just if the signs spell it.
  apply List.filter_congr
  intro w hw
  have hcovers := Mask.covers_ofPattern hsigns (h.capitals w hw)
  simp [RowQuery.ofConditions, RowQuery.ofCondition, Predicate.holds, Row.cell, Cell.bytes,
    ← hcovers]

/-- A mask that is too long finds no row: testing any would come to it. -/
theorem findRows_of_long_wide (lex : Lexicon) {text : String} (hwide : isWidePattern text = true)
    (hlong : maxMaskSize < text.toList.length) (negated : Bool) :
    lex.findRows [.pattern text negated] none = [] := by
  have hsigns := RowQuery.mem_wideSigns_of_isWidePattern hwide
  let predicate : Predicate := .like .word (String.ofList (Mask.ofPattern text.toList)) negated
  have hmask (row : Row) : predicate.meetsLongMask row = true := by
    rw [Predicate.meetsLongMask, utf8ByteSize_ofPattern hsigns]
    exact decide_eq_true hlong
  unfold findRows
  cases lex.store with
  | none => rfl
  | some store =>
    rw [Option.elim_some]
    cases hfind : store.find (RowQuery.ofConditions [.pattern text negated]) none with
    | error fault => rfl
    | ok words =>
      obtain ⟨t, -, rfl, -, hmasks⟩ := AttributeStore.find_eq_ok hfind
      show (List.map _ (List.filter _ _)) = []
      rw [List.map_eq_nil_iff, List.filter_eq_nil_iff]
      -- A row of which the predicate holds would have been tested, and so have met the mask.
      intro row hrow hholds
      have hshort : predicate.meetsLongMask row = false :=
        meetsLongMask_eq_false_of_holds hmasks hrow (List.all_eq_true.mp hholds)
          (List.mem_singleton.mpr rfl) row
      rw [hmask] at hshort
      cases hshort

/-- **With a store, a wide pattern** finds the words that its signs spell, as long as its mask is
not too long. -/
theorem IsSound.find_pattern_of_wide (h : lex.IsSound) (hrows : lex.StoresItsRows) {text : String}
    (hwide : isWidePattern text = true) (negated conjoined : Bool) :
    lex.find ⟨[.pattern text negated], conjoined⟩ true =
      lex.vocabulary.words.filter fun w => decide (text.toList.length ≤ maxMaskSize) &&
        (Pattern.rules.spells (text.toList.map Mask.wideToken) w != negated) := by
  have hwideUpper : isWidePattern text.toUpper = true := (isWidePattern_toUpper text).trans hwide
  -- The plan asks for the pattern in upper case, which is as long and has the same tokens.
  have hlength : text.toUpper.toList.length = text.toList.length := by simp [String.toUpper]
  have htokens : text.toUpper.toList.map Mask.wideToken = text.toList.map Mask.wideToken := by
    have hread := Token.read_toUpper text
    rw [RowQuery.tokens_of_isWidePattern hwideUpper, RowQuery.tokens_of_isWidePattern hwide]
      at hread
    exact Option.some.inj hread
  have hfound : lex.findRows [.pattern text.toUpper negated] none =
      lex.vocabulary.words.filter fun w => decide (text.toList.length ≤ maxMaskSize) &&
        (Pattern.rules.spells (text.toList.map Mask.wideToken) w != negated) := by
    by_cases hshort : text.toList.length ≤ maxMaskSize
    · rw [findRows_of_wide h hrows hwideUpper (hlength ▸ hshort), htokens]
      simp [hshort]
    · rw [findRows_of_long_wide lex hwideUpper (by omega)]
      simp [hshort]
  have hwords : ∀ w ∈ lex.findRows [.pattern text.toUpper negated] none,
      w ∈ lex.vocabulary.words := by
    intro w hw
    rw [hfound] at hw
    exact (List.mem_filter.mp hw).1
  apply h.find_singleton rfl (hrows.isIndexed ▸ Plan.conjunction_of_wide hwide negated)
  show (lex.searchIndex [.pattern text.toUpper negated] none).map Word.upper = _
  rw [h.searchIndex_none hwords, h.map_upper_eq hwords, hfound]

/-! ## §5 With a store and without one -/

/-- **With a store, any pattern** that not only the store reads finds the words that fit. -/
theorem IsSound.find_pattern_of_not_overlong (h : lex.IsSound) (hrows : lex.StoresItsRows)
    {text : String} (hread : isOverlong text = false) (negated conjoined : Bool) :
    lex.find ⟨[.pattern text negated], conjoined⟩ true =
      lex.vocabulary.words.filter (Condition.pattern text negated).fits := by
  cases hwide : isWidePattern text with
  | false => exact h.find_pattern_of_not_wide hrows.isIndexed hwide negated conjoined
  | true =>
    rw [h.find_pattern_of_wide hrows hwide]
    apply List.filter_congr
    intro w _
    by_cases hshort : text.toList.length ≤ Pattern.maxTokens
    · -- Both read the pattern, the graph token by token and the store as a mask.
      have hmask : text.toList.length ≤ maxMaskSize := Nat.le_trans hshort (by decide)
      rw [fits_of_short_wide hwide hshort, decide_eq_true hmask, Bool.true_and]
    · -- Neither does.
      have hlong : Pattern.maxTokens < text.toList.length := Nat.lt_of_not_le hshort
      have hmask : ¬ text.toList.length ≤ maxMaskSize := by
        simpa [isOverlong, hwide, hlong] using hread
      rw [fits_of_long_wide hwide hlong, decide_eq_false hmask, Bool.false_and]

/-- **One pattern, with a store and without one.** For any text, negated or not, a lexicon with a
store of its rows finds the words that the same lexicon finds without the store, and these are the
words that fit, **unless only the store reads the pattern**. Then nothing is found without it, not
even if the pattern is negated, and with it the words that the signs of the pattern spell, or do
not. -/
theorem search_pattern_eq_detached {lex₀ : Lexicon} (hfresh : lex₀.IsFresh)
    (steps : List LexiconStep) (hrows : (lex₀.runHistory steps).StoresItsRows) (text : String)
    (negated conjoined capitals : Bool) :
    let lex := lex₀.runHistory steps
    let spec : SearchSpec := ⟨[.pattern text negated], conjoined⟩
    let found := (lex.search spec capitals).1.map Word.upper
    let detached := (lex.detach.search spec capitals).1.map Word.upper
    detached = lex.vocabulary.words.filter (Condition.pattern text negated).fits ∧
    (isOverlong text = false → found = detached) ∧
    (isOverlong text = true →
      detached = [] ∧
      ∃ tokens, Token.read text = some tokens ∧
        found = lex.vocabulary.words.filter fun w => Pattern.rules.spells tokens w != negated) := by
  intro lex spec found detached
  have hsound : lex.IsSound := hfresh.isSound.runHistory steps
  have hfound : found = lex.find spec true := by
    rw [← map_upper_find lex spec capitals, ← fst_search]
  have hdetached :
      detached = lex.vocabulary.words.filter (Condition.pattern text negated).fits := by
    have hgraph := hsound.detach.find_pattern_of_unindexed rfl text negated conjoined
    rw [← map_upper_find lex.detach spec capitals, ← fst_search] at hgraph
    exact hgraph
  refine ⟨hdetached, ?_, ?_⟩
  · intro hread
    rw [hfound, hdetached]
    exact hsound.find_pattern_of_not_overlong hrows hread negated conjoined
  · intro hover
    simp only [isOverlong, Bool.and_eq_true, decide_eq_true_eq] at hover
    obtain ⟨⟨hwide, hlong⟩, hmask⟩ := hover
    refine ⟨?_, _, RowQuery.tokens_of_isWidePattern hwide, ?_⟩
    · rw [hdetached, List.filter_eq_nil_iff]
      intro w _
      simp [fits_of_long_wide hwide hlong]
    · rw [hfound, hsound.find_pattern_of_wide hrows hwide, decide_eq_true hmask]
      rfl

/-- Of `A`, `AT` and `TA`, the last is found for a `T` with a letter behind it, both ways. -/
theorem search_of_wide_pattern :
    ∃ lex₀ lex : Lexicon, lex₀.IsFresh ∧
      lex = lex₀.runHistory (lex₀.stock [[0x41, 0x54], [0x54, 0x41], [0x41]]) ∧ lex.StoresItsRows ∧
      ((lex.search ⟨[.pattern "*t?*" false], true⟩ false).1.map Word.upper) = [[0x54, 0x41]] ∧
      ((lex.detach.search ⟨[.pattern "*t?*" false], true⟩ false).1.map Word.upper) =
        [[0x54, 0x41]] := by
  have hfresh : IsFresh _ := ⟨"", twoLetters, rfl, by decide⟩
  have hrows := hfresh.isSound.storesItsRows_stock [[0x41, 0x54], [0x54, 0x41], [0x41]]
    (by decide +kernel) (by decide +kernel)
  obtain ⟨hdetached, hsame, -⟩ :=
    search_pattern_eq_detached hfresh _ hrows "*t?*" false true false
  have hfound := hsame (by decide)
  refine ⟨_, _, hfresh, rfl, hrows, ?_⟩
  rw [hfound, hdetached, and_self]
  decide +kernel

/-- So many stars. -/
def stars (n : Nat) : String := String.ofList (List.replicate n '*')

theorem toList_stars (n : Nat) : (stars n).toList = List.replicate n '*' := String.toList_ofList

theorem isWidePattern_stars {n : Nat} (h : 2 ≤ n) : isWidePattern (stars n) = true := by
  have hne : List.replicate n '*' ≠ [] := by simpa using by omega
  simp [isWidePattern, toList_stars, h, List.head?_eq_some_head hne, List.getLast?_eq_some_getLast hne]

/-- Stars spell every word. -/
theorem spells_stars {n : Nat} (h : n ≠ 0) (w : Word) :
    Pattern.rules.spells ((stars n).toList.map Mask.wideToken) w = true := by
  have htoken : Mask.wideToken '*' = .star := rfl
  rw [toList_stars, List.map_replicate, htoken, SignRules.spells_iff]
  -- The last star takes all letters, and each star before it takes none.
  induction n with
  | zero => exact absurd rfl h
  | succ n ih =>
    cases n with
    | zero => exact SignRules.spelling_star rfl w
    | succ n => exact .skip rfl (ih (by simp))

/-- **Too many stars for the graph** find every word in a store, and nothing without one. -/
theorem find_stars (h : lex.IsSound) (hrows : lex.StoresItsRows) {n : Nat}
    (hlong : Pattern.maxTokens < n) (hshort : n ≤ maxMaskSize) :
    lex.find ⟨[.pattern (stars n) false], true⟩ true = lex.vocabulary.words ∧
      lex.detach.find ⟨[.pattern (stars n) false], true⟩ true = [] := by
  have hmax : Pattern.maxTokens = 127 := rfl
  have hwide : isWidePattern (stars n) = true := isWidePattern_stars (by omega)
  have hlength : (stars n).toList.length = n := by rw [toList_stars, List.length_replicate]
  constructor
  · rw [h.find_pattern_of_wide hrows hwide, hlength, decide_eq_true hshort, List.filter_eq_self]
    intro w _
    rw [spells_stars (by omega)]
    rfl
  · rw [h.detach.find_pattern_of_unindexed rfl, List.filter_eq_nil_iff]
    intro w _
    simp [fits_of_long_wide hwide (hlength.symm ▸ hlong)]

/-- A pattern of 128 stars finds the word `A` in a store, and nothing without the store. -/
theorem search_of_many_stars :
    ∃ lex₀ lex : Lexicon, lex₀.IsFresh ∧ lex = lex₀.runHistory (lex₀.stock [[0x41]]) ∧
      (∀ step ∈ lex₀.stock [[0x41]], step.isTextual = true) ∧ lex.StoresItsRows ∧
      (lex.search ⟨[.pattern (stars 128) false], true⟩ true).1 = [[0x41]] ∧
      (lex.detach.search ⟨[.pattern (stars 128) false], true⟩ true).1 = [] := by
  have hfresh : IsFresh _ := ⟨"", twoLetters, rfl, by decide⟩
  have hrows := hfresh.isSound.storesItsRows_stock [[0x41]] (by decide +kernel)
    (by decide +kernel)
  obtain ⟨hfound, hdetached⟩ :=
    find_stars (hfresh.isSound.runHistory _) hrows (n := 128) (by decide) (by decide)
  refine ⟨_, _, hfresh, rfl, isTextual_stock _ _, hrows, ?_, ?_⟩
  · rw [fst_search, hfound]
    decide +kernel
  · rw [fst_search, hdetached]

end Lexicon

end WordStudy
