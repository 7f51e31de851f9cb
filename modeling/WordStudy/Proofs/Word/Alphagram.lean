import WordStudy.Proofs.Word.Capitals

/-!
# Alphagrams

The alphagram of a word is its bytes in upper case, sorted and shown as text. **Sorted bytes form no
character of more than one byte**, because the bytes that go on with a character are smaller than those
that start one. So ASCII bytes stay what they are, and each other one is shown as U+FFFD. A plain word
has its alphagram in common with the rearrangements of it, in any case, and with no other word.
-/

namespace WordStudy

/-! ## §1 Bytes that form no character -/

namespace Text.Utf8

variable {a : UInt8} {rest : List UInt8}

theorem within_eq_false {low high b : UInt8} (h : high < b) : within low high b = false := by
  rw [within, Bool.and_eq_false_iff]
  exact .inr (decide_eq_false (UInt8.not_le.mpr h))

theorem twoBytes_of_lt (h : ∀ b ∈ rest, 0xBF < b) : twoBytes a rest = (replacement, 0) := by
  match rest with
  | [] => rfl
  | b :: _ => simp [twoBytes, isTail, within_eq_false (h b (by simp))]

theorem threeBytes_of_lt {low high : UInt8} (h : ∀ b ∈ rest, high < b) :
    threeBytes a low high rest = (replacement, 0) := by
  match rest with
  | [] => rfl
  | [b] => simp [threeBytes, within_eq_false (h b (by simp))]
  | b :: _ :: _ => simp [threeBytes, within_eq_false (h b (by simp))]

theorem fourBytes_of_lt {low high : UInt8} (h : ∀ b ∈ rest, high < b) :
    fourBytes a low high rest = (replacement, 0) := by
  match rest with
  | [] => rfl
  | [b] => simp [fourBytes, within_eq_false (h b (by simp))]
  | [b, _] => simp [fourBytes, within_eq_false (h b (by simp))]
  | b :: _ :: _ :: _ => simp [fourBytes, within_eq_false (h b (by simp))]

/-- A byte up to `0xBF` starts no character of several bytes. -/
theorem characterAt_of_tail (hlow : 0x80 ≤ a) (hhigh : a ≤ 0xBF) :
    characterAt a rest = (replacement, 0) := by
  have hstart (low high : UInt8) (hlow : 0xBF < low) : within low high a = false := by
    rw [within, Bool.and_eq_false_iff]
    exact .inl (decide_eq_false (UInt8.not_le.mpr (UInt8.lt_of_le_of_lt hhigh hlow)))
  have hne (b : UInt8) (hb : 0xBF < b) : a ≠ b := by
    rintro rfl
    exact UInt8.not_le.mpr hb hhigh
  rw [characterAt, if_neg (UInt8.not_lt.mpr hlow), hstart 0xC2 0xDF (by decide),
    if_neg (hne 0xE0 (by decide)), if_neg (hne 0xED (by decide)), hstart 0xE1 0xEF (by decide),
    if_neg (hne 0xF0 (by decide)), hstart 0xF1 0xF3 (by decide), if_neg (hne 0xF4 (by decide))]
  rfl

/-- **A byte that precedes no smaller one** is read as part of no character, unless it is ASCII. -/
theorem characterAt_of_le (hlow : 0x80 ≤ a) (hrest : ∀ b ∈ rest, a ≤ b) :
    characterAt a rest = (replacement, 0) := by
  by_cases hhigh : a ≤ 0xBF
  · exact characterAt_of_tail hlow hhigh
  -- No byte behind it goes on with a character.
  have hbehind (high : UInt8) (hhigh' : high ≤ 0xBF) : ∀ b ∈ rest, high < b := by
    intro b hb
    have hstart : 0xBF < a := UInt8.not_le.mp hhigh
    exact UInt8.lt_of_le_of_lt hhigh' (UInt8.lt_of_lt_of_le hstart (hrest b hb))
  have hBF := hbehind 0xBF (by decide)
  have h9F := hbehind 0x9F (by decide)
  have h8F := hbehind 0x8F (by decide)
  simp only [characterAt, UInt8.not_lt.mpr hlow, if_false, twoBytes_of_lt hBF, threeBytes_of_lt hBF,
    threeBytes_of_lt h9F, fourBytes_of_lt hBF, fourBytes_of_lt h8F, ite_self]

end Text.Utf8

namespace Word

open Text

/-! ## §2 Sorted words -/

theorem pairwise_insertSorted (b : UInt8) {w : Word} (h : w.Pairwise (· ≤ ·)) :
    (insertSorted b w).Pairwise (· ≤ ·) := by
  induction w with
  | nil => simp [insertSorted]
  | cons c w ih =>
    obtain ⟨hc, hw⟩ := List.pairwise_cons.mp h
    unfold insertSorted
    split
    -- The byte comes first, or it goes on behind the first one.
    · next hle =>
      refine List.pairwise_cons.mpr ⟨?_, h⟩
      intro d hd
      rcases List.mem_cons.mp hd with rfl | hd
      · exact hle
      · exact UInt8.le_trans hle (hc d hd)
    · next hle =>
      refine List.pairwise_cons.mpr ⟨?_, ih hw⟩
      intro d hd
      rcases List.mem_cons.mp ((insertSorted_perm b w).mem_iff.mp hd) with rfl | hd
      · exact (UInt8.le_total _ _).resolve_left hle
      · exact hc d hd

theorem pairwise_sorted (w : Word) : (sorted w).Pairwise (· ≤ ·) := by
  induction w with
  | nil => exact .nil
  | cons b w ih => exact pairwise_insertSorted b ih

/-- **Rearranged words are sorted alike**, and only those. -/
theorem sorted_eq_iff_perm (v w : Word) : sorted v = sorted w ↔ v.Perm w := by
  constructor
  · intro heq
    exact (sorted_perm v).symm.trans (heq ▸ sorted_perm w)
  · intro hperm
    -- Two sorted lists of the same letters are one list.
    refine List.Perm.eq_of_pairwise ?_ (pairwise_sorted v) (pairwise_sorted w)
      (((sorted_perm v).trans hperm).trans (sorted_perm w).symm)
    intro a b _ _ hab hba
    exact UInt8.le_antisymm hab hba

/-! ## §3 Alphagrams -/

/-- The character that a byte is shown as where it stands alone. -/
def shownAlone (b : UInt8) : Char := if b < 0x80 then charOf b else Utf8.replacement

/-- The bytes of that character. -/
def bytesAlone (b : UInt8) : Word := if b < 0x80 then [b] else [0xEF, 0xBF, 0xBD]

theorem utf8EncodeChar_shownAlone (b : UInt8) :
    String.utf8EncodeChar (shownAlone b) = bytesAlone b := by
  refine byte_forall (p := fun b => String.utf8EncodeChar (shownAlone b) = bytesAlone b) ?_ b
  decide +kernel

/-- **Ascending bytes are shown one by one.** -/
theorem characters_of_pairwise {w : Word} (h : w.Pairwise (· ≤ ·)) :
    Utf8.characters w = w.map shownAlone := by
  unfold Utf8.characters
  induction w with
  | nil => rfl
  | cons b w ih =>
    obtain ⟨hb, hw⟩ := List.pairwise_cons.mp h
    have hread : Utf8.characterAt b w = (shownAlone b, 0) := by
      unfold shownAlone
      split
      · next hlow =>
        rw [Utf8.characterAt, if_pos hlow]
        rfl
      · next hlow => exact Utf8.characterAt_of_le (UInt8.not_lt.mp hlow) hb
    simp only [Utf8.charactersFrom, hread, List.map_cons]
    rw [ih hw]

/-- **The alphagram, byte by byte.** -/
theorem alphagram_eq_flatMap (w : Word) : w.alphagram = (sorted w.upper).flatMap bytesAlone := by
  simp only [alphagram, ofText, text, Utf8.textOf, Utf8.bytesOf, String.toList_ofList,
    characters_of_pairwise (pairwise_sorted w.upper), Utf8.encode, List.flatMap_map,
    utf8EncodeChar_shownAlone]

theorem flatMap_bytesAlone {w : Word} (h : ∀ b ∈ w, b < 0x80) : w.flatMap bytesAlone = w := by
  induction w with
  | nil => rfl
  | cons b w ih =>
    rw [List.flatMap_cons, bytesAlone, if_pos (h b (by simp)), ih fun c hc => h c (by simp [hc])]
    rfl

/-- If only ASCII bytes are shown, there are no others. -/
theorem lt_of_mem_of_flatMap_bytesAlone {w : Word} (h : ∀ b ∈ w.flatMap bytesAlone, b < 0x80)
    {b : UInt8} (hb : b ∈ w) : b < 0x80 := by
  refine UInt8.not_le.mp fun hge => ?_
  have hshown : 0xEF ∈ bytesAlone b := by
    rw [bytesAlone, if_neg (UInt8.not_lt.mpr hge)]
    decide
  exact absurd (h 0xEF (List.mem_flatMap.mpr ⟨b, hb, hshown⟩)) (by decide)

/-- **Anagrams are rearrangements.** A word has the alphagram of a plain one if it has just its
letters, in any case. -/
theorem IsPlain.alphagram_eq_iff_perm {v : Word} (h : v.IsPlain) (w : Word) :
    v.alphagram = w.alphagram ↔ v.Perm w.upper := by
  constructor
  · intro heq
    have hascii : ∀ b ∈ sorted v, b < 0x80 := (h.perm (sorted_perm v)).ascii
    have hsorted : sorted v = (sorted w.upper).flatMap bytesAlone := by
      rw [← alphagram_eq_flatMap, ← heq, alphagram_eq_flatMap, h.upper_eq, flatMap_bytesAlone hascii]
    rw [hsorted] at hascii
    -- So the other word is ASCII as well, and its bytes are shown as they are.
    rw [flatMap_bytesAlone fun b hb => lt_of_mem_of_flatMap_bytesAlone hascii hb] at hsorted
    exact (sorted_eq_iff_perm v w.upper).mp hsorted
  · intro hperm
    rw [alphagram, alphagram, h.upper_eq, (sorted_eq_iff_perm v w.upper).mpr hperm]

end Word

end WordStudy
