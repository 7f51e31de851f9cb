import WordStudy.Proofs.Attributes.Ranks
import WordStudy.Proofs.Search.Window

/-!
# What a window keeps

The edges of a window move over runs of tied words in a ranked list. What lies between them are the
words with a rank in the strict range, if **some rank of their tie is in both ranges**.
-/

namespace WordStudy

open Text

/-! ## §1 Edges -/

/-- **The draws never rise** from one place to a later one. -/
def IsDescending (draws : Array Nat) : Prop :=
  ∀ (i j : Nat) (hi : i < draws.size) (hj : j < draws.size), i ≤ j → draws[j] ≤ draws[i]

namespace RankWindow

variable {draws : Array Nat} {floor edge left i : Nat}

theorem tiedAt_iff {j : Nat} (hi : i < draws.size) (hj : j < draws.size) :
    tiedAt draws i j = true ↔ draws[i] = draws[j] := by
  simp [tiedAt, hi, hj]

/-- Behind the lower edge, when it was moved, lie the places that were behind it before and, down to
the floor, those that are tied with it. -/
theorem lowerEdge_le_iff (h : IsDescending draws) (hi : i < draws.size) (hedge : edge < draws.size)
    (hfloor : floor ≤ edge) :
    lowerEdge draws floor edge ≤ i ↔ edge ≤ i ∨ floor ≤ i ∧ draws[i] = draws[edge] := by
  induction edge with
  | zero => simp [lowerEdge]
  | succ edge ih =>
    -- The edge moves by one place as long as that place is tied and not below the floor.
    have htied := tiedAt_iff (Nat.lt_of_succ_lt hedge) hedge
    rw [lowerEdge]
    split
    · next hmove =>
      obtain ⟨hroom, htie⟩ := Bool.and_eq_true_iff.mp hmove
      have heq := htied.mp htie
      rw [decide_eq_true_eq] at hroom
      rw [ih (by omega) (by omega), heq]
      by_cases hplace : i = edge
      · subst hplace
        exact ⟨fun _ => .inr ⟨by omega, heq⟩, fun _ => .inl (Nat.le_refl _)⟩
      · omega
    · next hstop =>
      -- A tie further down would go through the place before the edge.
      refine ⟨.inl, ?_⟩
      rintro (hle | ⟨hle, heq⟩)
      · exact hle
      · by_contra hbefore
        have hdown := h i edge hi (by omega) (by omega)
        have hup := h edge (edge + 1) (by omega) hedge (by omega)
        refine hstop (Bool.and_eq_true_iff.mpr ⟨decide_eq_true (by omega), htied.mpr ?_⟩)
        omega

/-- Before the upper edge, when it was moved, lie the places that were before it and, for as many
places as are `left`, those that are tied with it. -/
theorem le_upperEdge_iff (h : IsDescending draws) (hi : i < draws.size)
    (hedge : edge + left < draws.size) :
    i ≤ upperEdge draws left edge ↔ i ≤ edge ∨ i ≤ edge + left ∧ draws[i] = draws[edge] := by
  induction left generalizing edge with
  | zero =>
    simp only [upperEdge]
    omega
  | succ left ih =>
    have htied : tiedAt draws (edge + 1) edge = true ↔ draws[edge + 1] = draws[edge] :=
      tiedAt_iff (by omega) (by omega)
    rw [upperEdge]
    split
    · next hmove =>
      have heq := htied.mp hmove
      rw [ih (by omega), heq]
      by_cases hplace : i = edge + 1
      · subst hplace
        exact ⟨fun _ => .inr ⟨by omega, heq⟩, fun _ => .inl (Nat.le_refl _)⟩
      · omega
    · next hstop =>
      -- A tie further up would go through the place behind the edge.
      refine ⟨.inl, ?_⟩
      rintro (hle | ⟨hle, heq⟩)
      · exact hle
      · by_contra hbehind
        have hdown := h (edge + 1) i (by omega) hi (by omega)
        have hup := h edge (edge + 1) (by omega) (by omega) (by omega)
        refine hstop (htied.mpr ?_)
        omega

end RankWindow

/-! ## §2 Ranked words -/

variable (bag : TileBag) (legacy : Bool) {words : List Word}

theorem isRanked_rankWords (words : List Word) :
    IsRanked ((rankWords bag legacy words).map (·.1)) := by
  have hsorted : ((words.map fun w => (RankKey.ofWord bag legacy w, w)).mergeSort
      fun a b => RankKey.le a.1 b.1).Pairwise fun a b => (RankKey.order a.1 b.1).isLE = true :=
    pairwise_mergeSort_on (fun e : RankKey × Word => e.1) _
  exact List.pairwise_map.mpr (pairwise_dropRepeats _ hsorted)

/-- Words are ranked with their keys. -/
theorem mem_rankWords {bag : TileBag} {legacy : Bool} {e : RankKey × Word}
    (he : e ∈ rankWords bag legacy words) :
    e.2 ∈ words ∧ e.1 = RankKey.ofWord bag legacy e.2 := by
  have hmem := (dropRepeats_sublist _ _).mem he
  rw [List.mem_mergeSort, List.mem_map] at hmem
  obtain ⟨w, hw, rfl⟩ := hmem
  exact ⟨hw, rfl⟩

/-- **Different words are all ranked.** -/
theorem map_rankWords_perm (hupper : ∀ w ∈ words, w.upper = w) (hnodup : words.Nodup) :
    ((rankWords bag legacy words).map (·.1)).Perm (words.map (RankKey.ofWord bag legacy)) := by
  refine (List.perm_ext_iff_of_nodup ?_ (RankKey.nodup_map_ofWord bag legacy hupper hnodup)).mpr ?_
  · exact (isRanked_rankWords bag legacy words).nodup
  · intro k
    rw [rankWords, mem_map_dropRepeats]
    simp

/-- **No word is ranked twice.** -/
theorem nodup_map_rankWords (words : List Word) :
    ((rankWords bag legacy words).map (·.2)).Nodup := by
  -- The keys are read off the words, so that words are repeated only where keys are.
  have hkeys := (isRanked_rankWords bag legacy words).nodup
  have hmap : (rankWords bag legacy words).map (·.1) =
      ((rankWords bag legacy words).map (·.2)).map (RankKey.ofWord bag legacy) := by
    rw [List.map_map]
    exact List.map_congr_left fun e he => (mem_rankWords he).2
  rw [hmap] at hkeys
  exact hkeys.of_map _

theorem length_rankWords (hupper : ∀ w ∈ words, w.upper = w) (hnodup : words.Nodup) :
    (rankWords bag legacy words).length = words.length := by
  have hperm := map_rankWords_perm bag legacy hupper hnodup
  simpa using hperm.length_eq

/-! ## §3 Windows -/

namespace RankWindow

/-- The draws of the ranked words, one after the other. -/
def rankedDraws (words : List Word) : Array Nat :=
  ((rankWords bag legacy words).map (·.1.draws)).toArray

@[simp] theorem size_rankedDraws (words : List Word) :
    (rankedDraws bag legacy words).size = (rankWords bag legacy words).length := by
  simp [rankedDraws]

theorem isDescending_rankedDraws (words : List Word) :
    IsDescending (rankedDraws bag legacy words) := by
  intro i j _ hj hij
  rw [size_rankedDraws] at hj
  have hdraws := (isRanked_rankWords bag legacy words).draws_antitone hij (by simpa using hj)
  simpa [rankedDraws] using hdraws

theorem mem_of_mem_keep {bag : TileBag} {window : RankWindow} {w : Word}
    (h : w ∈ window.keep bag words) : w ∈ words := by
  unfold keep at h
  extract_lets size low high ranked draws last high' floor ceiling lower upper at h
  split at h
  · cases h
  · obtain ⟨e, he, rfl⟩ := List.mem_map.mp h
    exact (mem_rankWords (List.mem_of_mem_drop (List.mem_of_mem_take he))).1

end RankWindow

end WordStudy
