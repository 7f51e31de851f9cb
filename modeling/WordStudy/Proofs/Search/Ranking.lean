import Mathlib.Order.Bounds.Defs
import WordStudy.Proofs.Search.Places

/-!
# Windows as runs of ranks

A window keeps **the words between two ranks** of the ranked list, in its order. The two ranks are
those of the range that strict and lax conditions leave together, each moved outwards over the
ranks that are tied with it as far as the strict conditions allow. Words that differ in more than
their case are all ranked, and their ranks do not depend on how they are listed.
-/

namespace WordStudy

open Text

/-! ## §1 The order of ranks -/

/-- **The word is ranked before the other one**: it has more draws; or as many draws and the lesser
alphagram; or as many draws, the same alphagram and it is the lesser word. Legacy ranks leave out
the alphagrams, and case does not matter. -/
def Word.RankedBefore (bag : TileBag) (legacy : Bool) (v w : Word) : Prop :=
  bag.draws w.upper < bag.draws v.upper ∨
    bag.draws v.upper = bag.draws w.upper ∧
      (legacy = false ∧ order v.upper.alphagram w.upper.alphagram = .lt ∨
        (legacy = true ∨ v.upper.alphagram = w.upper.alphagram) ∧ order v.upper w.upper = .lt)

/-- The keys of words are in that order. -/
theorem RankKey.order_ofWord_eq_lt_iff (bag : TileBag) (legacy : Bool) (v w : Word) :
    order (ofWord bag legacy v) (ofWord bag legacy w) = .lt ↔ Word.RankedBefore bag legacy v w := by
  -- The alphagrams decide, unless they are the same or left out.
  have halphagram : Word.order v.upper.alphagram w.upper.alphagram = .eq ↔
      v.upper.alphagram = w.upper.alphagram := Std.LawfulEqCmp.compare_eq_iff_eq
  simp only [order, ofWord, Word.RankedBefore, Ordering.then_eq_lt, Nat.compare_eq_lt,
    Nat.compare_eq_eq]
  cases legacy <;> simp [alphagramOrder, halphagram, eq_comm]

/-- No two words are each ranked before the other. -/
theorem Word.RankedBefore.asymm {bag : TileBag} {legacy : Bool} {v w : Word}
    (h : RankedBefore bag legacy v w) : ¬ RankedBefore bag legacy w v := by
  intro h'
  rw [← RankKey.order_ofWord_eq_lt_iff] at h h'
  have hself : RankKey.order (RankKey.ofWord bag legacy v) (RankKey.ofWord bag legacy v) = .eq :=
    Std.ReflCmp.compare_self
  cases hself.symm.trans (Std.TransCmp.lt_trans h h')

variable (bag : TileBag) (legacy : Bool) {words : List Word}

/-- **Words that differ in more than their case are all ranked.** -/
theorem rankWords_perm (hcase : (words.map Word.upper).Nodup) :
    (rankWords bag legacy words).Perm (words.map fun w => (RankKey.ofWord bag legacy w, w)) := by
  -- In upper case none of the words is dropped, and dropping goes by the upper case.
  have hlength : (rankWords bag legacy words).length = words.length := by
    have hupper : ∀ w ∈ words.map Word.upper, w.upper = w := by simp
    have h := length_rankWords bag legacy hupper hcase
    rwa [rankWords_map_upper, List.length_map, List.length_map] at h
  have hsublist := dropRepeats_sublist (fun e : RankKey × Word => e.1)
    ((words.map fun w => (RankKey.ofWord bag legacy w, w)).mergeSort fun a b => RankKey.le a.1 b.1)
  have hsorted : rankWords bag legacy words = (words.map fun w =>
      (RankKey.ofWord bag legacy w, w)).mergeSort fun a b => RankKey.le a.1 b.1 :=
    hsublist.eq_of_length (hlength.trans (by simp))
  rw [hsorted]
  exact List.mergeSort_perm _ _

/-- The words in the order of their ranks. -/
def ranked (words : List Word) : List Word := (rankWords bag legacy words).map (·.2)

theorem ranked_perm (hcase : (words.map Word.upper).Nodup) :
    (ranked bag legacy words).Perm words := by
  have hperm := (rankWords_perm bag legacy hcase).map (·.2)
  rwa [List.map_map, List.map_id''] at hperm
  exact fun _ => rfl

theorem pairwise_ranked (words : List Word) :
    (ranked bag legacy words).Pairwise (Word.RankedBefore bag legacy) := by
  have hkeys := List.pairwise_map.mp (isRanked_rankWords bag legacy words)
  refine List.pairwise_map.mpr (hkeys.imp_of_mem fun {a b} ha hb hlt => ?_)
  rw [(mem_rankWords ha).2, (mem_rankWords hb).2] at hlt
  exact (RankKey.order_ofWord_eq_lt_iff bag legacy a.2 b.2).mp hlt

/-- No more words are ranked than are given. -/
theorem length_ranked_le (words : List Word) : (ranked bag legacy words).length ≤ words.length := by
  have hle := (dropRepeats_sublist (fun e : RankKey × Word => e.1)
    ((words.map fun w => (RankKey.ofWord bag legacy w, w)).mergeSort
      fun a b => RankKey.le a.1 b.1)).length_le
  rw [List.length_mergeSort, List.length_map] at hle
  rwa [ranked, List.length_map]

/-- **No word is left out of the ranks** but for another one with its key. -/
theorem mem_map_fst_rankWords {key : RankKey} :
    key ∈ (rankWords bag legacy words).map (·.1) ↔ ∃ w ∈ words, RankKey.ofWord bag legacy w = key := by
  rw [rankWords, mem_map_dropRepeats]
  simp

theorem ranked_ne_nil (hne : words ≠ []) : ranked bag legacy words ≠ [] := by
  obtain ⟨w, hw⟩ := List.exists_mem_of_ne_nil words hne
  have hkey := (mem_map_fst_rankWords bag legacy).mpr ⟨w, hw, rfl⟩
  intro hnil
  rw [List.map_eq_nil_iff.mp hnil] at hkey
  cases hkey

/-- **Ranks do not depend on how the words are listed.** -/
theorem rankWords_eq_of_perm {words' : List Word} (hcase : (words.map Word.upper).Nodup)
    (h : words'.Perm words) : rankWords bag legacy words' = rankWords bag legacy words := by
  have hcase' : (words'.map Word.upper).Nodup := (h.map _).nodup_iff.mpr hcase
  have hperm : (rankWords bag legacy words').Perm (rankWords bag legacy words) :=
    ((rankWords_perm bag legacy hcase').trans (h.map _)).trans
      (rankWords_perm bag legacy hcase).symm
  refine hperm.eq_of_pairwise (fun a b _ _ hab hba => ?_)
    (List.pairwise_map.mp (isRanked_rankWords bag legacy words'))
    (List.pairwise_map.mp (isRanked_rankWords bag legacy words))
  -- No two keys are each before the other.
  have hself : RankKey.order a.1 a.1 = .eq := Std.ReflCmp.compare_self
  cases hself.symm.trans (Std.TransCmp.lt_trans hab hba)

/-! ## §2 Ties between ranks -/

/-- The words at the ranks from `first` to `last`, the first rank being 1. -/
def atRanks {α : Type} (words : List α) (first last : Nat) : List α :=
  (words.drop (first - 1)).take (last + 1 - first)

theorem mem_atRanks_succ_iff {α : Type} {words : List α} {i j : Nat} {w : α} :
    w ∈ atRanks words (i + 1) (j + 1) ↔ ∃ k, i ≤ k ∧ k ≤ j ∧ words[k]? = some w := by
  rw [atRanks, Nat.add_sub_cancel, List.mem_iff_getElem?]
  constructor
  · rintro ⟨k, hk⟩
    rw [List.getElem?_take, List.getElem?_drop] at hk
    split at hk
    · exact ⟨i + k, by omega, by omega, hk⟩
    · cases hk
  · rintro ⟨k, hik, hkj, hk⟩
    refine ⟨k - i, ?_⟩
    rw [List.getElem?_take, List.getElem?_drop, if_pos (by omega), Nat.add_sub_cancel' hik, hk]

/-- **The words at these ranks are tied**: all have as many draws. -/
def AreTied (bag : TileBag) (words : List Word) (first last : Nat) : Prop :=
  ∀ v ∈ atRanks words first last, ∀ w ∈ atRanks words first last,
    bag.draws v.upper = bag.draws w.upper

/-- The draws of words, one after the other. -/
def drawsOf (bag : TileBag) (words : List Word) : Array Nat :=
  (words.map fun w => bag.draws w.upper).toArray

@[simp] theorem size_drawsOf (words : List Word) : (drawsOf bag words).size = words.length := by
  simp [drawsOf]

variable {bag}

/-- Where the draws never rise, ranks are tied if the first of them is tied with the last. -/
theorem areTied_iff {i j : Nat} (h : IsDescending (drawsOf bag words)) (hij : i ≤ j)
    (hj : j < (drawsOf bag words).size) :
    AreTied bag words (i + 1) (j + 1) ↔ (drawsOf bag words)[i] = (drawsOf bag words)[j] := by
  have hsize := size_drawsOf bag words
  have hget (k : Nat) (hk : k < (drawsOf bag words).size) :
      (drawsOf bag words)[k] = bag.draws words[k].upper := by simp [drawsOf]
  constructor
  · intro htied
    rw [hget i (by omega), hget j hj]
    exact htied _ (mem_atRanks_succ_iff.mpr ⟨i, Nat.le_refl i, hij, List.getElem?_eq_getElem _⟩)
      _ (mem_atRanks_succ_iff.mpr ⟨j, hij, Nat.le_refl j, List.getElem?_eq_getElem _⟩)
  · intro hends
    -- Whatever stands between the two has no more draws than the first and no fewer than the last.
    have hsame : ∀ w ∈ atRanks words (i + 1) (j + 1),
        bag.draws w.upper = (drawsOf bag words)[i] := by
      intro w hw
      obtain ⟨k, hik, hkj, hk⟩ := mem_atRanks_succ_iff.mp hw
      obtain ⟨hk', rfl⟩ := List.getElem?_eq_some_iff.mp hk
      rw [← hget k (by omega)]
      have hdown := h i k (by omega) (by omega) hik
      have hup := h k j (by omega) hj hkj
      omega
    intro v hv w hw
    rw [hsame v hv, hsame w hw]

namespace RankWindow

/-- **The lower edge is moved to the least rank** that the edge is tied with down to there. -/
theorem isLeast_lowerEdge {floor edge : Nat} (h : IsDescending (drawsOf bag words))
    (hedge : edge < (drawsOf bag words).size) (hfloor : floor ≤ edge) :
    IsLeast {r | floor + 1 ≤ r ∧ AreTied bag words r (edge + 1)}
      (lowerEdge (drawsOf bag words) floor edge + 1) := by
  have hle : lowerEdge (drawsOf bag words) floor edge ≤ edge :=
    (lowerEdge_le_iff h hedge hedge hfloor).mpr (.inl (Nat.le_refl _))
  have hself := (lowerEdge_le_iff h (by omega) hedge hfloor).mp
    (Nat.le_refl (lowerEdge (drawsOf bag words) floor edge))
  constructor
  · refine ⟨by omega, (areTied_iff h hle hedge).mpr ?_⟩
    rcases hself with hge | ⟨-, htie⟩
    · simp only [Nat.le_antisymm hle hge]
    · exact htie
  · rintro r ⟨hr, htied⟩
    obtain ⟨i, rfl⟩ : ∃ i, r = i + 1 := ⟨r - 1, by omega⟩
    -- Ranks behind the edge are tied with nothing, but greater anyway.
    by_cases hi : i ≤ edge
    · have htie := (areTied_iff h hi hedge).mp htied
      have hlower := (lowerEdge_le_iff h (by omega) hedge hfloor).mpr (.inr ⟨by omega, htie⟩)
      exact Nat.succ_le_succ hlower
    · omega

theorem upperEdge_le (draws : Array Nat) (left edge : Nat) :
    upperEdge draws left edge ≤ edge + left := by
  induction left generalizing edge with
  | zero => exact Nat.le_refl _
  | succ left ih =>
    rw [upperEdge]
    split
    · have h := ih (edge + 1)
      omega
    · omega

/-- **The upper edge is moved to the greatest rank** that the edge is tied with up to there. -/
theorem isGreatest_upperEdge {edge ceiling : Nat} (h : IsDescending (drawsOf bag words))
    (hedge : edge ≤ ceiling) (hceiling : ceiling < (drawsOf bag words).size) :
    IsGreatest {r | r ≤ ceiling + 1 ∧ AreTied bag words (edge + 1) r}
      (upperEdge (drawsOf bag words) (ceiling - edge) edge + 1) := by
  have hsize : edge + (ceiling - edge) < (drawsOf bag words).size := by omega
  have hle : edge ≤ upperEdge (drawsOf bag words) (ceiling - edge) edge :=
    (le_upperEdge_iff h (by omega) hsize).mpr (.inl (Nat.le_refl _))
  have hge := upperEdge_le (drawsOf bag words) (ceiling - edge) edge
  -- The edge itself is tied: it did not move, or it moved along the tie.
  have hself := (le_upperEdge_iff h (by omega) hsize).mp
    (Nat.le_refl (upperEdge (drawsOf bag words) (ceiling - edge) edge))
  constructor
  · refine ⟨by omega, (areTied_iff h hle (by omega)).mpr ?_⟩
    rcases hself with hge | ⟨-, htie⟩
    · simp only [Nat.le_antisymm hge hle]
    · exact htie.symm
  · rintro r ⟨hr, htied⟩
    -- A rank further on is tied with the edge only if all between them are.
    by_cases hi : edge < r
    · obtain ⟨i, rfl⟩ : ∃ i, r = i + 1 := ⟨r - 1, by omega⟩
      have htie := (areTied_iff h (by omega) (by omega)).mp htied
      have hupper := (le_upperEdge_iff h (by omega) hsize).mpr (.inr ⟨by omega, htie.symm⟩)
      exact Nat.succ_le_succ hupper
    · omega

/-- An edge is moved outwards only. -/
theorem lowerEdge_le (draws : Array Nat) (floor edge : Nat) : lowerEdge draws floor edge ≤ edge := by
  induction edge with
  | zero => exact Nat.le_refl _
  | succ edge ih =>
    rw [lowerEdge]
    split
    · exact Nat.le_succ_of_le ih
    · exact Nat.le_refl _

theorem le_upperEdge (draws : Array Nat) (left edge : Nat) : edge ≤ upperEdge draws left edge := by
  induction left generalizing edge with
  | zero => exact Nat.le_refl _
  | succ left ih =>
    rw [upperEdge]
    split
    · exact Nat.le_of_succ_le (ih (edge + 1))
    · exact Nat.le_refl _

/-! ## §3 Ranks in a window -/

/-- The draws of the ranked words are those of their keys. -/
theorem drawsOf_ranked (bag : TileBag) (words : List Word) :
    drawsOf bag (ranked bag legacy words) = rankedDraws bag legacy words := by
  rw [drawsOf, ranked, rankedDraws, List.map_map]
  refine congrArg List.toArray (List.map_congr_left fun e he => ?_)
  rw [(mem_rankWords he).2]
  rfl

/-- The greater of two places is that of the greater rank. -/
theorem max_place_add_one {size r s : Nat} (hr : r ≤ size) (hs : s ≤ size) :
    max (place size r) (place size s) + 1 = max 1 (max r s) := by
  unfold place
  omega

/-- The smaller of two places is that of the smaller rank, or the last one. -/
theorem min_place_add_one {size r s : Nat} (hsize : 0 < size) (hr : 0 < r) (hs : 0 < s) :
    min (place size r) (place size s) + 1 = min size (min r s) := by
  unfold place
  omega

theorem place_of_le {size r : Nat} (h : r ≤ size) : place size r = r - 1 :=
  Nat.min_eq_left (Nat.sub_le_sub_right h 1)

/-- A place among those that are ranked. -/
theorem min_place_last {size count r : Nat} (h : count ≤ size) :
    min (place size r) (count - 1) = min count r - 1 := by
  unfold place
  omega

/-- **There is nothing to keep** exactly if no rank of the list is in both ranges. -/
theorem misses_iff (window : RankWindow) (size : Nat) :
    (decide (size = 0) || window.misses size ||
        decide (min (place size window.strict.greatest) (place size window.lax.greatest) <
          max (place size window.strict.least) (place size window.lax.least))) = true ↔
      min size (min window.strict.greatest window.lax.greatest) <
        max 1 (max window.strict.least window.lax.least) := by
  simp only [Bool.or_eq_true, decide_eq_true_eq, misses, beq_iff_eq]
  -- The places are those of the bounds unless a bound lies outside the list.
  by_cases hleast : window.strict.least ≤ size ∧ window.lax.least ≤ size
  · by_cases hgreatest : 0 < size ∧ 0 < window.strict.greatest ∧ 0 < window.lax.greatest
    · rw [← max_place_add_one hleast.1 hleast.2,
        ← min_place_add_one hgreatest.1 hgreatest.2.1 hgreatest.2.2]
      omega
    · exact iff_of_true (by omega) (by omega)
  · exact iff_of_true (by omega) (by omega)

theorem keep_eq_nil {window : RankWindow}
    (h : min words.length (min window.strict.greatest window.lax.greatest) <
      max 1 (max window.strict.least window.lax.least)) : window.keep bag words = [] :=
  if_pos ((misses_iff window words.length).mpr h)

/-- **What is kept lies between the edges**, moved from the first and last place in both ranges, of
as many words as are ranked. -/
theorem keep_eq_atRanks_of_meets {window : RankWindow}
    (hmeets : max 1 (max window.strict.least window.lax.least) ≤
      min words.length (min window.strict.greatest window.lax.greatest)) :
    let inOrder := ranked bag window.legacy words
    let draws := drawsOf bag inOrder
    let low := min inOrder.length (max 1 (max window.strict.least window.lax.least))
    let high := min inOrder.length (min window.strict.greatest window.lax.greatest)
    window.keep bag words = atRanks inOrder
      (lowerEdge draws (window.strict.least - 1) (low - 1) + 1)
      (upperEdge draws (min inOrder.length window.strict.greatest - high) (high - 1) + 1) := by
  intro inOrder draws low high
  obtain ⟨hfirst, hgreatest⟩ := Nat.le_min.mp hmeets
  obtain ⟨hone, hleasts⟩ := Nat.max_le.mp hfirst
  obtain ⟨hstrict, hlax⟩ := Nat.max_le.mp hleasts
  obtain ⟨hstrict', hlax'⟩ := Nat.le_min.mp (Nat.le_trans (Nat.le_max_left _ _) hgreatest)
  have hpos : 0 < inOrder.length :=
    List.length_pos_iff.mpr (ranked_ne_nil bag window.legacy (List.length_pos_iff.mp hone))
  have hcount : inOrder.length ≤ words.length := length_ranked_le bag window.legacy words
  have hlow : 1 ≤ low := Nat.le_min.mpr ⟨hpos, Nat.le_max_left _ _⟩
  have hle : low ≤ high := Nat.le_min.mpr
    ⟨Nat.min_le_left _ _, Nat.le_trans (Nat.min_le_right _ _) hgreatest⟩
  unfold keep
  extract_lets size low₀ high₀ entries draws₀ last high' floor ceiling lower upper
  rw [if_neg (mt (misses_iff window words.length).mp (Nat.not_lt.mpr hmeets))]
  -- What is worked out step by step, named by the ranks of the list in order.
  have hdraws : draws₀ = draws := (drawsOf_ranked window.legacy bag words).symm
  have hlast : last = inOrder.length - 1 := congrArg (· - 1) (List.length_map _).symm
  have hfloor : floor = window.strict.least - 1 := place_of_le hstrict
  have hhigh' : high' = high - 1 := by
    have hhigh₀ : high₀ + 1 = min words.length (min window.strict.greatest window.lax.greatest) :=
      min_place_add_one hone hstrict' hlax'
    have hmin : min inOrder.length (min words.length (min window.strict.greatest
        window.lax.greatest)) = high := by
      rw [← Nat.min_assoc, Nat.min_eq_left hcount]
    rw [← hmin, ← hhigh₀, ← Nat.sub_min_sub_right, ← hlast, Nat.add_sub_cancel, Nat.min_comm]
  have hlow' : min low₀ high' = low - 1 := by
    have hlow₀ : low₀ + 1 = max 1 (max window.strict.least window.lax.least) :=
      max_place_add_one hstrict hlax
    have hmin : min (max 1 (max window.strict.least window.lax.least)) high = low := by
      rw [Nat.min_left_comm, Nat.min_eq_left hgreatest]
    rw [← hmin, ← hlow₀, ← Nat.sub_min_sub_right, Nat.add_sub_cancel, hhigh']
  have hceiling : ceiling - high' = min inOrder.length window.strict.greatest - high := by
    have hceiling₀ : ceiling = min inOrder.length window.strict.greatest - 1 := by
      rw [← min_place_last hcount, ← hlast]
    rw [hceiling₀, hhigh']
    omega
  have hlower : lower = lowerEdge draws (window.strict.least - 1) (low - 1) := by
    simp only [lower, hdraws, hfloor, hlow']
  have hupper : upper =
      upperEdge draws (min inOrder.length window.strict.greatest - high) (high - 1) := by
    rw [← hceiling, ← hhigh', ← hdraws]
  -- The lower edge only goes down and the upper one only up, so they do not cross.
  have hspan : lowerEdge draws (window.strict.least - 1) (low - 1) ≤
      upperEdge draws (min inOrder.length window.strict.greatest - high) (high - 1) :=
    Nat.le_trans (lowerEdge_le _ _ _)
      (Nat.le_trans (Nat.sub_le_sub_right hle 1) (le_upperEdge _ _ _))
  rw [hlower, hupper, List.map_take, List.map_drop, atRanks, Nat.add_sub_cancel, Nat.succ_sub_succ,
    Nat.succ_sub hspan]
  rfl

/-- Where no word is dropped, the edges are moved from the first and last place in both ranges. -/
theorem keep_eq_atRanks {window : RankWindow} (hcase : (words.map Word.upper).Nodup)
    (hmeets : max 1 (max window.strict.least window.lax.least) ≤
      min words.length (min window.strict.greatest window.lax.greatest)) :
    let draws := drawsOf bag (ranked bag window.legacy words)
    let floor := place words.length window.strict.least
    let low := max floor (place words.length window.lax.least)
    let ceiling := place words.length window.strict.greatest
    let high := min ceiling (place words.length window.lax.greatest)
    window.keep bag words = atRanks (ranked bag window.legacy words)
      (lowerEdge draws floor low + 1) (upperEdge draws (ceiling - high) high + 1) := by
  intro draws floor low ceiling high
  have hkeep : window.keep bag words = _ := keep_eq_atRanks_of_meets hmeets
  have hcount := (ranked_perm bag window.legacy hcase).length_eq
  obtain ⟨hstrict, hlax, hgreatest, hgreatest', hpos⟩ : window.strict.least ≤ words.length ∧
      window.lax.least ≤ words.length ∧ 0 < window.strict.greatest ∧ 0 < window.lax.greatest ∧
        0 < words.length := by
    -- The size test was passed, so every bound is within the list.
    omega
  have hfloor : floor = window.strict.least - 1 := place_of_le hstrict
  have hlow : low + 1 = _ := max_place_add_one hstrict hlax
  have hhigh : high + 1 = _ := min_place_add_one hpos hgreatest hgreatest'
  have hceiling : ceiling + 1 = min words.length window.strict.greatest := by
    simpa using min_place_add_one hpos hgreatest hgreatest
  rw [hkeep, hcount, ← hlow, ← hhigh, ← hceiling, ← hfloor, Nat.min_eq_right (by omega)]
  simp only [Nat.add_sub_cancel, Nat.add_sub_add_right]
  rfl

/-- **What is kept does not depend on how the words are listed.** -/
theorem keep_eq_of_perm (window : RankWindow) {words' : List Word}
    (hcase : (words.map Word.upper).Nodup) (h : words'.Perm words) :
    window.keep bag words' = window.keep bag words := by
  unfold keep
  rw [h.length_eq, rankWords_eq_of_perm bag window.legacy hcase h]

end RankWindow

/-! ## §4 Windows of conditions -/

/-- What is common to ranges of ranks; without any, it is all numbers of 32 bits. -/
def Bounds.common (ranges : List Bounds) : Bounds := ranges.foldl narrow ⟨0, maxWord32⟩

namespace Condition

/-- The range of a window condition that is lax, or of one that is strict. -/
def windowRange? (lax : Bool) : Condition → Option Bounds
  | window range lax' _ => if lax' = lax then some range else none
  | _ => none

/-- The condition is a window of legacy ranks. -/
def isLegacyWindow : Condition → Bool
  | window _ _ legacy => legacy
  | _ => false

end Condition

namespace RankWindow

/-- **Conditions narrow strict and lax ranges apart** from each other. -/
theorem foldl_narrow (conditions : List Condition) (window : RankWindow) :
    conditions.foldl narrow window =
      ⟨(conditions.filterMap (Condition.windowRange? false)).foldl Bounds.narrow window.strict,
        (conditions.filterMap (Condition.windowRange? true)).foldl Bounds.narrow window.lax,
        window.legacy || conditions.any Condition.isLegacyWindow⟩ := by
  induction conditions generalizing window with
  | nil => simp
  -- The window goes on narrowing from what the conditions before it left.
  | cons c conditions ih =>
    rw [List.foldl_cons, ih, List.any_cons]
    cases c with
    | window range lax legacy =>
      rw [← Bool.or_assoc]
      cases lax <;> rfl
    | _ => rfl

/-- **What a window of ranks keeps.** Of words that differ in more than their case, in the order of
their ranks, are kept those between two ranks, if there is a rank that all window conditions have in
their range. From the first such rank the window reaches down to the least one that is tied with it,
as far as the strict conditions allow, and up from the last one in the same way. It does not matter
how the words are listed. -/
theorem keep_eq_ranks_between_ties (bag : TileBag) {conditions : List Condition}
    (hwindow : conditions.any Condition.isWindow = true) {words : List Word}
    (hcase : (words.map Word.upper).Nodup) :
    let strict := Bounds.common (conditions.filterMap (Condition.windowRange? false))
    let lax := Bounds.common (conditions.filterMap (Condition.windowRange? true))
    let legacy := conditions.any Condition.isLegacyWindow
    let low := max 1 (max strict.least lax.least)
    let high := min words.length (min strict.greatest lax.greatest)
    ∃ window, ofConditions conditions = some window ∧
      ∃ inOrder : List Word, inOrder.Perm words ∧
        inOrder.Pairwise (Word.RankedBefore bag legacy) ∧
        (high < low → window.keep bag words = []) ∧
        (low ≤ high → ∃ first last,
          IsLeast {r | max 1 strict.least ≤ r ∧ AreTied bag inOrder r low} first ∧
          IsGreatest {r | r ≤ min words.length strict.greatest ∧ AreTied bag inOrder high r} last ∧
          window.keep bag words = atRanks inOrder first last) ∧
        ∀ words' : List Word, words'.Perm words →
          window.keep bag words' = window.keep bag words := by
  intro strict lax legacy low high
  have hfold : conditions.foldl narrow all = ⟨strict, lax, legacy⟩ := by
    rw [foldl_narrow]
    exact congrArg _ (Bool.false_or _)
  refine ⟨⟨strict, lax, legacy⟩, ?_, ranked bag legacy words, ranked_perm bag legacy hcase,
    pairwise_ranked bag legacy words, fun hlt => keep_eq_nil hlt, ?_,
    fun words' h => keep_eq_of_perm _ hcase h⟩
  · rw [ofConditions, if_pos hwindow, hfold]
  · intro hle
    obtain ⟨hstrict, hlax, hgreatest, hgreatest', hpos⟩ : strict.least ≤ words.length ∧
        lax.least ≤ words.length ∧ 0 < strict.greatest ∧ 0 < lax.greatest ∧ 0 < words.length := by
      omega
    -- Ranks are one more than places.
    have hlow := max_place_add_one hstrict hlax
    have hhigh := min_place_add_one hpos hgreatest hgreatest'
    have hfloor : max 1 strict.least = place words.length strict.least + 1 := by
      simpa using (max_place_add_one hstrict hstrict).symm
    have hceiling : min words.length strict.greatest = place words.length strict.greatest + 1 := by
      simpa using (min_place_add_one hpos hgreatest hgreatest).symm
    have hdesc : IsDescending (drawsOf bag (ranked bag legacy words)) := by
      rw [drawsOf_ranked]
      exact isDescending_rankedDraws bag legacy words
    have hsize : (drawsOf bag (ranked bag legacy words)).size = words.length := by
      rw [size_drawsOf, (ranked_perm bag legacy hcase).length_eq]
    simp only [low, high, ← hlow, ← hhigh, hfloor, hceiling]
    exact ⟨_, _, isLeast_lowerEdge hdesc (by omega) (Nat.le_max_left _ _),
      isGreatest_upperEdge hdesc (Nat.min_le_left _ _) (by omega),
      keep_eq_atRanks hcase hle⟩

/-- Of the tied words `ta` and `AT`, a lax window that begins between them keeps both, in order. -/
theorem keep_both_of_tie :
    ∃ window, ofConditions [.window ⟨2, 9⟩ true false] = some window ∧
      window.keep ⟨[], []⟩ [[0x74, 0x61], [0x41, 0x54]] = [[0x41, 0x54], [0x74, 0x61]] := by
  obtain ⟨window, hwindow, inOrder, hperm, hpairwise, -, hkeep, -⟩ :=
    @keep_eq_ranks_between_ties ⟨[], []⟩ [.window ⟨2, 9⟩ true false] (by decide)
      [[0x74, 0x61], [0x41, 0x54]] (by decide)
  refine ⟨window, hwindow, ?_⟩
  obtain ⟨first, last, ⟨⟨hfirst, -⟩, hleast⟩, ⟨⟨hlast, -⟩, hgreatest⟩, hkept⟩ := hkeep (by decide)
  -- Without tiles all draws are zero, so that all ranks are tied.
  have htied (i j : Nat) : AreTied ⟨[], []⟩ inOrder i j := by
    have hnone : ∀ w ∈ atRanks inOrder i j, (⟨[], []⟩ : TileBag).draws w.upper = 0 := by
      have hall : ∀ w ∈ ([[0x74, 0x61], [0x41, 0x54]] : List Word),
          (⟨[], []⟩ : TileBag).draws w.upper = 0 := by decide +kernel
      exact fun w hw => hall w (hperm.subset (List.mem_of_mem_drop (List.mem_of_mem_take hw)))
    intro v hv w hw
    rw [hnone v hv, hnone w hw]
  obtain rfl : first = 1 := Nat.le_antisymm (hleast ⟨by decide, htied _ _⟩) hfirst
  obtain rfl : last = 2 := Nat.le_antisymm hlast (hgreatest ⟨by decide, htied _ _⟩)
  -- The ties are broken by the alphagram first and then by the word itself.
  have hsorted : inOrder = [[0x41, 0x54], [0x74, 0x61]] := by
    refine (hperm.trans (List.Perm.swap _ _ _)).eq_of_pairwise
      (fun v w _ _ hvw hwv => absurd hwv hvw.asymm) hpairwise (List.pairwise_pair.mpr ?_)
    exact .inr ⟨by decide +kernel, .inr ⟨.inr (by decide +kernel), by decide +kernel⟩⟩
  rw [hkept, hsorted]
  rfl

end RankWindow

end WordStudy
