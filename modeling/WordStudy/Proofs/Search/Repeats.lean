import WordStudy.Proofs.Search.Ranking

/-!
# Windows and repeated words

Words that differ in case only have one rank, but whether a window lies within a list is told by
**how many words are given**. So repeated words change what is kept if the window begins behind the
last rank, though not behind the last word: then the window is drawn back to the last rank, where
without the repeated words it would keep nothing. In every other case they make no difference.
-/

namespace WordStudy

open Text

/-! ## §1 The same ranks -/

section SameRanks

variable (bag : TileBag) (legacy : Bool) {words distinct : List Word}
  (hsame : ∀ w, w ∈ distinct.map Word.upper ↔ w ∈ words.map Word.upper)

include hsame

/-- **Lists with the same words in some case have the same ranks.** -/
theorem map_fst_rankWords_eq :
    (rankWords bag legacy distinct).map (·.1) = (rankWords bag legacy words).map (·.1) := by
  have hranked := isRanked_rankWords bag legacy distinct
  have hranked' := isRanked_rankWords bag legacy words
  -- The key of a word is that of its upper case.
  have hkeys (list : List Word) (key : RankKey) :
      (∃ w ∈ list, RankKey.ofWord bag legacy w = key) ↔
        ∃ w ∈ list.map Word.upper, RankKey.ofWord bag legacy w = key := by
    simp
  have hperm := (List.perm_ext_iff_of_nodup hranked.nodup hranked'.nodup).mpr fun key => by
    rw [mem_map_fst_rankWords, mem_map_fst_rankWords, hkeys, hkeys words]
    simp only [hsame]
  refine hperm.eq_of_pairwise (fun a b _ _ hab hba => ?_) hranked hranked'
  have hself : RankKey.order a a = .eq := Std.ReflCmp.compare_self
  cases hself.symm.trans (Std.TransCmp.lt_trans hab hba)

theorem map_upper_ranked_eq :
    (ranked bag legacy distinct).map Word.upper = (ranked bag legacy words).map Word.upper := by
  have hwords (list : List Word) : (ranked bag legacy list).map Word.upper =
      ((rankWords bag legacy list).map (·.1)).map RankKey.word := by
    rw [ranked, List.map_map, List.map_map]
    exact List.map_congr_left fun e he => congrArg RankKey.word (mem_rankWords he).2.symm
  rw [hwords, hwords, map_fst_rankWords_eq bag legacy hsame]

theorem length_ranked_eq :
    (ranked bag legacy distinct).length = (ranked bag legacy words).length := by
  simpa using congrArg List.length (map_upper_ranked_eq bag legacy hsame)

theorem drawsOf_ranked_eq :
    drawsOf bag (ranked bag legacy distinct) = drawsOf bag (ranked bag legacy words) := by
  have hdraws (list : List Word) :
      drawsOf bag list = ((list.map Word.upper).map bag.draws).toArray := by
    rw [drawsOf, List.map_map]
    rfl
  rw [hdraws, hdraws, map_upper_ranked_eq bag legacy hsame]

end SameRanks

theorem map_atRanks {α β : Type} (f : α → β) (words : List α) (first last : Nat) :
    (atRanks words first last).map f = atRanks (words.map f) first last := by
  rw [atRanks, atRanks, List.map_take, List.map_drop]

namespace RankWindow

variable {bag : TileBag} {words distinct : List Word} {window : RankWindow}

/-! ## §2 Windows that begin within the ranks -/

/-- **Where the window meets both lists, it keeps the same words of them**, in some case. -/
theorem map_upper_keep_eq (hsame : ∀ w, w ∈ distinct.map Word.upper ↔ w ∈ words.map Word.upper)
    (hmeets : max 1 (max window.strict.least window.lax.least) ≤
      min words.length (min window.strict.greatest window.lax.greatest))
    (hmeets' : max 1 (max window.strict.least window.lax.least) ≤
      min distinct.length (min window.strict.greatest window.lax.greatest)) :
    (window.keep bag words).map Word.upper = (window.keep bag distinct).map Word.upper := by
  have hkeep : window.keep bag words = _ := keep_eq_atRanks_of_meets hmeets
  have hkeep' : window.keep bag distinct = _ := keep_eq_atRanks_of_meets hmeets'
  rw [hkeep, hkeep', map_atRanks, map_atRanks, map_upper_ranked_eq bag window.legacy hsame,
    length_ranked_eq bag window.legacy hsame, drawsOf_ranked_eq bag window.legacy hsame]

/-! ## §3 Windows that begin behind the ranks -/

/-- A floor above the edge keeps it in its place, as the edge itself does. -/
theorem lowerEdge_min (draws : Array Nat) (floor edge : Nat) :
    lowerEdge draws floor edge = lowerEdge draws (min floor edge) edge := by
  by_cases hfloor : floor ≤ edge
  · rw [Nat.min_eq_left hfloor]
  · have hstays (floor : Nat) (h : edge ≤ floor) : lowerEdge draws floor edge = edge := by
      cases edge with
      | zero => rfl
      | succ edge => simp [lowerEdge, Nat.not_lt.mpr h]
    rw [hstays floor (by omega), hstays _ (by omega)]

/-- **A window that begins behind the last rank** is drawn back to it and reaches down over the
ranks that are tied with it, as far as the strict conditions allow. -/
theorem exists_keep_eq_of_lt {last : Nat} (hlast : (ranked bag window.legacy words).length = last)
    (hmeets : max 1 (max window.strict.least window.lax.least) ≤
      min words.length (min window.strict.greatest window.lax.greatest))
    (hbehind : last < max 1 (max window.strict.least window.lax.least)) :
    ∃ first, first ≤ last ∧
      IsLeast {r | min last (max 1 window.strict.least) ≤ r ∧
        AreTied bag (ranked bag window.legacy words) r last} first ∧
      window.keep bag words = atRanks (ranked bag window.legacy words) first last := by
  have hkeep : window.keep bag words = _ := keep_eq_atRanks_of_meets hmeets
  obtain ⟨hone, hgreatest⟩ := Nat.le_min.mp hmeets
  have hpos : 0 < last := hlast ▸ List.length_pos_iff.mpr
    (ranked_ne_nil bag window.legacy (List.length_pos_iff.mp (by omega)))
  -- All ends but the floor are those of the last rank.
  have hwithin : last ≤ min window.strict.greatest window.lax.greatest :=
    Nat.le_trans (Nat.le_of_lt hbehind) hgreatest
  have hlow : min last (max 1 (max window.strict.least window.lax.least)) = last :=
    Nat.min_eq_left (Nat.le_of_lt hbehind)
  have hhigh : min last (min window.strict.greatest window.lax.greatest) = last :=
    Nat.min_eq_left hwithin
  have hceiling : min last window.strict.greatest = last :=
    Nat.min_eq_left (Nat.le_trans hwithin (Nat.min_le_left _ _))
  have hplace : last - 1 + 1 = last := Nat.sub_add_cancel hpos
  have hfloor : min (window.strict.least - 1) (last - 1) + 1 =
      min last (max 1 window.strict.least) := by omega
  have hdesc : IsDescending (drawsOf bag (ranked bag window.legacy words)) := by
    rw [drawsOf_ranked]
    exact isDescending_rankedDraws bag window.legacy words
  have hleast : IsLeast _ (lowerEdge (drawsOf bag (ranked bag window.legacy words))
      (min (window.strict.least - 1) (last - 1)) (last - 1) + 1) :=
    isLeast_lowerEdge hdesc (by rw [size_drawsOf]; omega) (Nat.min_le_right _ _)
  rw [hfloor, hplace, ← lowerEdge_min] at hleast
  refine ⟨_, ?_, hleast, ?_⟩
  · exact Nat.le_trans (Nat.succ_le_succ (lowerEdge_le _ _ _)) (Nat.le_of_eq hplace)
  · rw [hkeep, hlast, hlow, hhigh, hceiling, Nat.sub_self, upperEdge, hplace]

theorem atRanks_ne_nil {words : List Word} {first : Nat} (hfirst : first ≤ words.length)
    (hne : words ≠ []) : atRanks words first words.length ≠ [] := by
  have hpos := List.length_pos_iff.mpr hne
  refine List.ne_nil_of_length_pos ?_
  rw [atRanks, List.length_take, List.length_drop]
  omega

/-! ## §4 Windows of conditions -/

/-- The window of conditions, by what is common to their ranges. -/
theorem ofConditions_eq {conditions : List Condition}
    (hwindow : conditions.any Condition.isWindow = true) :
    ofConditions conditions = some
      ⟨Bounds.common (conditions.filterMap (Condition.windowRange? false)),
        Bounds.common (conditions.filterMap (Condition.windowRange? true)),
        conditions.any Condition.isLegacyWindow⟩ := by
  rw [ofConditions, if_pos hwindow, foldl_narrow]
  exact congrArg some (congrArg _ (Bool.false_or _))

/-- **When repeated words make a difference.** Let a list have the same words as another one that
has each of them once, in whatever case and order. Then a window keeps the same words of both lists,
in the same order, unless it begins behind the last rank but not behind the last of the words given.
Where it begins behind the last rank, it keeps nothing of the list without repeated words. Of the
one with them it then keeps the word of the last rank and those tied with it, as far down as the
strict conditions allow. -/
theorem keep_eq_iff_of_repeated (bag : TileBag) {conditions : List Condition}
    (hwindow : conditions.any Condition.isWindow = true) {words distinct : List Word}
    (hcase : (distinct.map Word.upper).Nodup)
    (hsame : ∀ w, w ∈ distinct.map Word.upper ↔ w ∈ words.map Word.upper) :
    let strict := Bounds.common (conditions.filterMap (Condition.windowRange? false))
    let lax := Bounds.common (conditions.filterMap (Condition.windowRange? true))
    let legacy := conditions.any Condition.isLegacyWindow
    let low := max 1 (max strict.least lax.least)
    let high := min strict.greatest lax.greatest
    ∃ window, ofConditions conditions = some window ∧
      ((window.keep bag words).map Word.upper = (window.keep bag distinct).map Word.upper ↔
        ¬(distinct.length < low ∧ low ≤ min words.length high)) ∧
      (distinct.length < low → window.keep bag distinct = []) ∧
      (distinct.length < low → low ≤ min words.length high →
        ∃ inOrder first, (inOrder.map Word.upper).Perm (distinct.map Word.upper) ∧
          (∀ w ∈ inOrder, w ∈ words) ∧ inOrder.Pairwise (Word.RankedBefore bag legacy) ∧
          IsLeast {r | min distinct.length (max 1 strict.least) ≤ r ∧
            AreTied bag inOrder r distinct.length} first ∧
          window.keep bag words = atRanks inOrder first distinct.length) := by
  intro strict lax legacy low high
  let window : RankWindow := ⟨strict, lax, legacy⟩
  -- The list ranked without repetitions is the one that every range is met in.
  have hupper : ((ranked bag legacy words).map Word.upper).Perm (distinct.map Word.upper) := by
    rw [← map_upper_ranked_eq bag legacy hsame]
    exact (ranked_perm bag legacy hcase).map _
  have hcount : (ranked bag legacy words).length = distinct.length := by
    simpa using hupper.length_eq
  have hnone (h : distinct.length < low) : window.keep bag distinct = [] :=
    keep_eq_nil (Nat.lt_of_le_of_lt (Nat.min_le_left _ _) h)
  -- The size test is passed by the longer length, and the ranks are clamped to the shorter one.
  have hsome (h : distinct.length < low) (hmeets : low ≤ min words.length high) :
      ∃ first, first ≤ distinct.length ∧
        IsLeast {r | min distinct.length (max 1 strict.least) ≤ r ∧
          AreTied bag (ranked bag legacy words) r distinct.length} first ∧
        window.keep bag words = atRanks (ranked bag legacy words) first distinct.length :=
    @exists_keep_eq_of_lt bag words window _ hcount hmeets h
  refine ⟨window, ofConditions_eq hwindow, ?_, hnone, fun h hmeets => ?_⟩
  · by_cases hmeets : low ≤ min words.length high
    · by_cases h : distinct.length < low
      · -- Something is kept of the one list and nothing of the other.
        refine iff_of_false (fun heq => ?_) (not_not_intro ⟨h, hmeets⟩)
        obtain ⟨first, hfirst, -, hkeep⟩ := hsome h hmeets
        have hpos : 0 < words.length :=
          Nat.lt_of_lt_of_le (Nat.le_max_left 1 _) (Nat.le_trans hmeets (Nat.min_le_left _ _))
        have hne := ranked_ne_nil bag legacy (List.length_pos_iff.mp hpos)
        rw [hnone h, List.map_nil, List.map_eq_nil_iff, hkeep, ← hcount] at heq
        exact atRanks_ne_nil (hcount ▸ hfirst) hne heq
      · have hmeets' : low ≤ min distinct.length high := by omega
        exact iff_of_true (map_upper_keep_eq hsame hmeets hmeets') fun hbehind => h hbehind.1
    · -- Neither list has a rank in all ranges.
      have hfewer : distinct.length ≤ words.length := hcount ▸ length_ranked_le bag legacy words
      have hle : min distinct.length high ≤ min words.length high := by omega
      have hlt : min words.length high < low := Nat.not_le.mp hmeets
      have hkeep : window.keep bag words = [] := keep_eq_nil hlt
      have hkeep' : window.keep bag distinct = [] := keep_eq_nil (Nat.lt_of_le_of_lt hle hlt)
      exact iff_of_true (by rw [hkeep, hkeep']) fun hbehind => hmeets hbehind.2
  · obtain ⟨first, -, hfirst, hkeep⟩ := hsome h hmeets
    refine ⟨_, first, hupper, fun w hw => ?_, pairwise_ranked bag legacy words, hfirst, hkeep⟩
    obtain ⟨e, he, rfl⟩ := List.mem_map.mp hw
    exact (mem_rankWords he).1

/-- Of `ta`, `AT` and `TA` the window of the second rank keeps what it keeps of `AT` and `ta`. -/
theorem keep_eq_of_repeated_tie :
    ∃ window, ofConditions [.window ⟨2, 2⟩ false false] = some window ∧
      (window.keep ⟨[], []⟩ [[0x74, 0x61], [0x41, 0x54], [0x54, 0x41]]).map Word.upper =
        (window.keep ⟨[], []⟩ [[0x41, 0x54], [0x74, 0x61]]).map Word.upper := by
  let words : List Word := [[0x74, 0x61], [0x41, 0x54], [0x54, 0x41]]
  let distinct : List Word := [[0x41, 0x54], [0x74, 0x61]]
  have hfound : ∀ w ∈ distinct.map Word.upper, w ∈ words.map Word.upper := by decide
  have hothers : ∀ w ∈ words.map Word.upper, w ∈ distinct.map Word.upper := by decide
  obtain ⟨window, hwindow, hiff, -⟩ :=
    @keep_eq_iff_of_repeated ⟨[], []⟩ [.window ⟨2, 2⟩ false false] (by decide)
      words distinct (by decide) fun w => ⟨hfound w, hothers w⟩
  exact ⟨window, hwindow, hiff.mpr (by decide)⟩

/-- Of `A` given three times the second and the third rank keep it, of `A` given once nothing. -/
theorem keep_of_thrice_repeated :
    ∃ window, ofConditions [.window ⟨2, 3⟩ false false] = some window ∧
      window.keep ⟨[], []⟩ [[0x41], [0x41], [0x41]] = [[0x41]] ∧
      window.keep ⟨[], []⟩ [[0x41]] = [] := by
  have hsorted : ([[0x41], [0x41], [0x41]].map fun w =>
      (RankKey.ofWord ⟨[], []⟩ false w, w)).Pairwise fun a b => RankKey.le a.1 b.1 = true := by
    decide +kernel
  have hranks : rankWords ⟨[], []⟩ false [[0x41], [0x41], [0x41]] =
      [(RankKey.ofWord ⟨[], []⟩ false [0x41], [0x41])] := by
    rw [rankWords, List.mergeSort_of_pairwise hsorted]
    decide +kernel
  refine ⟨⟨⟨2, 3⟩, ⟨0, maxWord32⟩, false⟩, by decide, ?_, by decide⟩
  rw [keep, if_neg (by decide), hranks]
  decide +kernel

end RankWindow

end WordStudy
