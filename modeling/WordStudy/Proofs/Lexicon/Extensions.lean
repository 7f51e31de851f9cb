import Mathlib.Data.List.Perm.Subperm
import WordStudy.Lexicon.Classifier
import WordStudy.Proofs.Lexicon.Stems
import WordStudy.Proofs.Word.Alphagram

/-!
# Words that extend a stem

A word extends a stem if taking out one or two of its letters leaves an anagram of it. For one letter
this is tried on the sorted word, and what is left is looked up among the alphagrams. For two letters
nothing is taken out, but the letters of each stem are counted against those of the word. Both ways
find **just the words that extend a stem**, whatever lists of stems there are, but the second one also
finds words for a stem that has signs other than letters: these are not counted.
-/

namespace WordStudy

/-! ## §1 Taking letters out -/

section Deletions

variable {α : Type} {l x : List α}

/-- **Taking out one** leaves `x` in some order, just if the list is `x` and one more. -/
theorem exists_eraseIdx_perm :
    (∃ i < l.length, (l.eraseIdx i).Perm x) ↔ ∃ a, l.Perm (a :: x) := by
  constructor
  · rintro ⟨i, hi, hperm⟩
    exact ⟨l[i], (List.getElem_cons_eraseIdx_perm hi).symm.trans (hperm.cons _)⟩
  · rintro ⟨a, hperm⟩
    obtain ⟨i, hi, rfl⟩ := List.getElem_of_mem (hperm.mem_iff.mpr List.mem_cons_self)
    exact ⟨i, hi, ((List.getElem_cons_eraseIdx_perm hi).trans hperm).cons_inv⟩

/-- **Taking out two.** -/
theorem exists_eraseIdx_eraseIdx_perm :
    (∃ i < l.length, ∃ j < l.length - 1, ((l.eraseIdx i).eraseIdx j).Perm x) ↔
      ∃ a b, l.Perm (a :: b :: x) := by
  -- With the first letter dropped, the second is one of a list that is shorter by one.
  have hsecond : ∀ i < l.length, (∃ j < l.length - 1, ((l.eraseIdx i).eraseIdx j).Perm x) ↔
      ∃ b, (l.eraseIdx i).Perm (b :: x) := by
    intro i hi
    rw [← exists_eraseIdx_perm, List.length_eraseIdx_of_lt hi]
  constructor
  · rintro ⟨i, hi, hj⟩
    obtain ⟨b, hb⟩ := (hsecond i hi).mp hj
    obtain ⟨a, ha⟩ := exists_eraseIdx_perm.mp ⟨i, hi, hb⟩
    exact ⟨a, b, ha⟩
  · rintro ⟨a, b, hperm⟩
    obtain ⟨i, hi, hb⟩ := exists_eraseIdx_perm.mpr ⟨a, hperm⟩
    exact ⟨i, hi, (hsecond i hi).mpr ⟨b, hb⟩⟩

/-- A list that has all of `x` and two more. -/
theorem subperm_iff_exists_perm (h : l.length = x.length + 2) :
    x.Subperm l ↔ ∃ a b, l.Perm (a :: b :: x) := by
  constructor
  · intro hsub
    obtain ⟨b, hb⟩ := hsub.exists_of_length_lt (by omega)
    obtain ⟨a, ha⟩ := hb.exists_of_length_lt (by simp [h])
    exact ⟨a, b, (ha.perm_of_length_le (by simp [h])).symm⟩
  · rintro ⟨a, b, hperm⟩
    exact (((List.sublist_cons_self b x).trans (List.sublist_cons_self a _)).subperm).trans
      hperm.symm.subperm

end Deletions

/-! ## §2 Letters -/

namespace Word

/-- The letters of a word in upper case, without its other bytes. -/
def letters (w : Word) : Word := w.upper.filter isUpper

theorem letters_of_inCapitals {w : Word} (h : w.upper.InCapitals) : w.letters = w.upper :=
  List.filter_eq_self.mpr h

/-- The alphagram has the letters of the word: what it shows for other bytes are no letters. -/
theorem letters_alphagram_perm (w : Word) : w.alphagram.letters.Perm w.letters := by
  -- A byte that is no letter may give several in the alphagram, and none of them is a letter.
  have hbyte (b : UInt8) :
      ((bytesAlone b).map upperByte).filter isUpper = ([b].map upperByte).filter isUpper := by
    refine byte_forall (p := fun b =>
      ((bytesAlone b).map upperByte).filter isUpper = ([b].map upperByte).filter isUpper) ?_ b
    decide +kernel
  have hletters : w.alphagram.letters = (sorted w.upper).letters := by
    rw [letters, letters, upper, upper, alphagram_eq_flatMap, List.map_flatMap,
      List.filter_flatMap, funext hbyte, ← List.filter_flatMap, ← List.map_flatMap,
      List.flatMap_singleton']
  have hupper : w.letters = w.upper.letters := by rw [letters, letters, upper_upper]
  rw [hletters, hupper]
  exact ((sorted_perm w.upper).map upperByte).filter isUpper

/-- **Counting letters** against those of a word of capitals that is not too long to be counted. -/
theorem fitsIn_iff_subperm {part whole : Word} (hwhole : whole.InCapitals)
    (hshort : whole.length < maxLetterCount) :
    part.fitsIn whole = true ↔ part.letters.Subperm whole := by
  -- Below the greatest count the counts are exact, so they are those of multisets.
  have hcount (l : UInt8) : part.letterCount l ≤ whole.letterCount l ↔
      part.upper.count l ≤ whole.count l := by
    have hle : whole.count l ≤ whole.length := List.count_le_length
    rw [letterCount, letterCount, hwhole.isPlain.upper_eq]
    omega
  simp only [fitsIn, List.all_eq_true, decide_eq_true_eq, hcount, mem_alphabet_iff]
  rw [List.subperm_ext_iff]
  constructor
  · intro h l hl
    have hl := (List.mem_filter.mp hl).2
    rw [letters, List.count_filter hl]
    exact h l hl
  · intro h l hl
    by_cases hmem : l ∈ part.upper
    · have hle := h l (List.mem_filter.mpr ⟨hmem, hl⟩)
      rwa [letters, List.count_filter hl] at hle
    · rw [List.count_eq_zero_of_not_mem hmem]
      exact Nat.zero_le _

/-- Sorted capitals are their own alphagram. -/
theorem InCapitals.alphagram_of_pairwise {w : Word} (h : w.InCapitals)
    (hsorted : w.Pairwise (· ≤ ·)) : w.alphagram = w := by
  have hself : sorted w = w :=
    (sorted_perm w).eq_of_pairwise (fun _ _ _ _ => UInt8.le_antisymm) (pairwise_sorted w) hsorted
  rw [alphagram_eq_flatMap, h.isPlain.upper_eq, hself, flatMap_bytesAlone h.isPlain.ascii]

theorem InCapitals.alphagram_eq_sorted {w : Word} (h : w.InCapitals) : w.alphagram = sorted w := by
  rw [alphagram_eq_flatMap, h.isPlain.upper_eq,
    flatMap_bytesAlone fun b hb => h.isPlain.ascii b ((sorted_perm w).mem_iff.mp hb)]

end Word

/-! ## §3 Stems that are kept -/

/-- **Lists of stems keep** a stem of any of them that is not empty, and as long as the first one
there that is not empty. -/
def KeepsStem (lists : List (List Word)) (stem : Word) : Prop :=
  ∃ list ∈ lists, stem ∈ list ∧ stem ≠ [] ∧
    ∃ first, list.find? (!·.isEmpty) = some first ∧ stem.length = first.length

namespace StemIndex

/-- The index of lists of stems, the first one first. -/
def ofLists (lists : List (List Word)) : StemIndex :=
  lists.foldl (fun index stems => (index.add stems).1) empty

theorem mem_kept_iff {list : List Word} {s : Word} :
    s ∈ kept list ↔ ∃ stem ∈ list, stem ≠ [] ∧
      (∃ first, list.find? (!·.isEmpty) = some first ∧ stem.length = first.length) ∧
      stem.upper = s := by
  -- The length that counts is that of the first stem with a letter, before capitals as after.
  have hfirst : ((list.map Word.upper).filter (!·.isEmpty)).head? =
      (list.find? (!·.isEmpty)).map Word.upper := by
    rw [List.head?_filter, List.find?_map]
    congr 2
    funext w
    simp [Word.upper]
  unfold kept
  dsimp only
  rw [hfirst]
  cases hfind : list.find? (!·.isEmpty) with
  | none => simp
  | some first =>
    simp only [Option.map_some, List.mem_filter, List.mem_map, Word.length_upper]
    constructor
    · rintro ⟨⟨⟨stem, hmem, rfl⟩, hne⟩, hlength⟩
      refine ⟨stem, hmem, by simpa [Word.upper] using hne, ⟨first, rfl, ?_⟩, rfl⟩
      simpa using hlength
    · rintro ⟨stem, hmem, hne, ⟨_, heq, hlength⟩, rfl⟩
      cases heq
      exact ⟨⟨⟨stem, hmem, rfl⟩, by simpa [Word.upper] using hne⟩, by simpa using hlength⟩

theorem stems_foldl_add (lists : List (List Word)) (index : StemIndex) (n : Nat) :
    (lists.foldl (fun index stems => (index.add stems).1) index).stems n =
      index.stems n ++ lists.flatMap fun list => (kept list).filter (·.length == n) := by
  induction lists generalizing index with
  | nil => simp
  | cons list lists ih =>
    rw [List.foldl_cons, ih, stems_add, List.flatMap_cons, List.append_assoc]

/-- **The stems listed** are those that the lists keep, in upper case. -/
theorem mem_stems_ofLists {lists : List (List Word)} {n : Nat} {s : Word} :
    s ∈ (ofLists lists).stems n ↔
      ∃ stem, KeepsStem lists stem ∧ stem.length = n ∧ stem.upper = s := by
  have hnone : empty.stems n = [] := by simp [stems, empty]
  rw [ofLists, stems_foldl_add, hnone, List.nil_append, List.mem_flatMap]
  simp only [List.mem_filter, mem_kept_iff, beq_iff_eq]
  constructor
  · rintro ⟨list, hlist, ⟨stem, hmem, hne, hfirst, rfl⟩, hlength⟩
    exact ⟨stem, ⟨list, hlist, hmem, hne, hfirst⟩, by simpa using hlength, rfl⟩
  · rintro ⟨stem, ⟨list, hlist, hmem, hne, hfirst⟩, hlength, rfl⟩
    exact ⟨list, hlist, ⟨stem, hmem, hne, hfirst, rfl⟩, by simpa using hlength⟩

theorem isListed_ofLists (lists : List (List Word)) : (ofLists lists).IsListed :=
  List.foldlRecOn lists _ isListed_empty fun _ h list _ => h.add list

theorem contains_ofLists {lists : List (List Word)} {n : Nat} {a : Word} :
    (ofLists lists).contains n a = true ↔
      ∃ stem, KeepsStem lists stem ∧ stem.length = n ∧ stem.alphagram = a := by
  have hupper (stem : Word) : stem.upper.alphagram = stem.alphagram := by
    simp only [Word.alphagram, Word.upper_upper]
  rw [isListed_ofLists lists n a, List.any_eq_true]
  simp only [mem_stems_ofLists, beq_iff_eq]
  constructor
  · rintro ⟨_, ⟨stem, hkeeps, hlength, rfl⟩, rfl⟩
    exact ⟨stem, hkeeps, hlength, (hupper stem).symm⟩
  · rintro ⟨stem, hkeeps, hlength, rfl⟩
    exact ⟨stem.upper, ⟨stem, hkeeps, hlength, rfl⟩, hupper stem⟩

/-! ## §4 Words that extend a stem -/

section Extensions

variable {lists : List (List Word)} {w : Word} (hw : w.InCapitals)

include hw in
/-- **One letter too many**: the word is a stem and one more letter, in some order. -/
theorem oneShort_ofLists_iff : (ofLists lists).oneShort w = true ↔
    ∃ stem, KeepsStem lists stem ∧ ∃ a, w.Perm (a :: stem.upper) := by
  have hsorted : (Word.sorted w).Perm w := Word.sorted_perm w
  -- What is left of the sorted word is sorted, so that it is looked up as it is.
  have hleft (i : Nat) (stem : Word) : stem.alphagram = (Word.sorted w).eraseIdx i ↔
      ((Word.sorted w).eraseIdx i).Perm stem.upper := by
    have hsub := (Word.sorted w).eraseIdx_sublist i
    have hcapitals : Word.InCapitals ((Word.sorted w).eraseIdx i) :=
      fun b hb => hw b (hsorted.mem_iff.mp (hsub.subset hb))
    rw [← hcapitals.isPlain.alphagram_eq_iff_perm,
      hcapitals.alphagram_of_pairwise ((Word.pairwise_sorted w).sublist hsub), eq_comm]
  have hextends (stem : Word) :
      (∃ i < (Word.sorted w).length, ((Word.sorted w).eraseIdx i).Perm stem.upper) ↔
        ∃ a, w.Perm (a :: stem.upper) := by
    rw [exists_eraseIdx_perm]
    exact exists_congr fun a => ⟨hsorted.symm.trans, hsorted.trans⟩
  rw [oneShort, hw.alphagram_eq_sorted, deletions_eq_map, List.any_map, List.any_eq_true]
  simp only [List.mem_range, Function.comp_apply, contains_ofLists, hleft]
  constructor
  · rintro ⟨i, hi, stem, hkeeps, -, hperm⟩
    exact ⟨stem, hkeeps, (hextends stem).mp ⟨i, hi, hperm⟩⟩
  · rintro ⟨stem, hkeeps, a, hperm⟩
    obtain ⟨i, hi, hleft⟩ := (hextends stem).mpr ⟨a, hperm⟩
    have hlength := hperm.length_eq
    rw [List.length_cons, Word.length_upper] at hlength
    exact ⟨i, hi, stem, hkeeps, by omega, hleft⟩

include hw in
/-- **Two letters too many**: the letters of a stem two bytes shorter are among those of the word. -/
theorem twoShort_ofLists_iff (hshort : w.length < maxLetterCount) :
    (ofLists lists).twoShort w = true ↔
      ∃ stem, KeepsStem lists stem ∧ w.length = stem.length + 2 ∧ stem.letters.Subperm w := by
  have hfits (stem : Word) : stem.alphagram.fitsIn w = true ↔ stem.letters.Subperm w := by
    rw [Word.fitsIn_iff_subperm hw hshort]
    exact (Word.letters_alphagram_perm stem).subperm_right
  rw [twoShort, List.any_eq_true]
  simp only [mem_alphagrams, contains_ofLists]
  constructor
  · rintro ⟨_, ⟨stem, hkeeps, hlength, rfl⟩, hsub⟩
    -- No stem that is kept is empty.
    have hne : stem ≠ [] := by
      obtain ⟨_, _, _, hne, _⟩ := hkeeps
      exact hne
    have hpos := List.length_pos_of_ne_nil hne
    exact ⟨stem, hkeeps, by omega, (hfits stem).mp hsub⟩
  · rintro ⟨stem, hkeeps, hlength, hsub⟩
    exact ⟨_, ⟨stem, hkeeps, by omega, rfl⟩, (hfits stem).mpr hsub⟩

include hw in
/-- **Where two letters may be taken out**: the word is a stem and two more letters, in some order, or
its letters have in them those of a stem that has other signs as well. -/
theorem twoShort_ofLists_cases (hshort : w.length < maxLetterCount) :
    (ofLists lists).twoShort w = true ↔
      (∃ stem, KeepsStem lists stem ∧ ∃ a b, w.Perm (a :: b :: stem.upper)) ∨
      ∃ stem, KeepsStem lists stem ∧ w.length = stem.length + 2 ∧ ¬stem.upper.InCapitals ∧
        stem.letters.Subperm w := by
  rw [twoShort_ofLists_iff hw hshort]
  constructor
  · rintro ⟨stem, hkeeps, hlength, hsub⟩
    -- A stem in capitals is short of two letters of the word; any other one is only within it.
    by_cases hstem : stem.upper.InCapitals
    · rw [Word.letters_of_inCapitals hstem] at hsub
      exact .inl ⟨stem, hkeeps, (subperm_iff_exists_perm (by simpa using hlength)).mp hsub⟩
    · exact .inr ⟨stem, hkeeps, hlength, hstem, hsub⟩
  · rintro (⟨stem, hkeeps, a, b, hperm⟩ | ⟨stem, hkeeps, hlength, -, hsub⟩)
    · have hlength := hperm.length_eq
      simp only [List.length_cons, Word.length_upper] at hlength
      have hstem : stem.upper.InCapitals := fun l hl => hw l (hperm.mem_iff.mpr (by simp [hl]))
      refine ⟨stem, hkeeps, hlength, ?_⟩
      rw [Word.letters_of_inCapitals hstem, subperm_iff_exists_perm (by simpa using hlength)]
      exact ⟨a, b, hperm⟩
    · exact ⟨stem, hkeeps, hlength, hsub⟩

end Extensions

end StemIndex

/-! ## §5 Study sets -/

namespace Classifier

theorem isTypeOne_of_seven {stems : StemIndex} {w : Word} (h : w.length = 7) :
    isTypeOne stems w = stems.oneShort w := by simp [isTypeOne, h]

theorem isTypeOne_of_eight {stems : StemIndex} {w : Word} (h : w.length = 8) :
    isTypeOne stems w = stems.twoShort w := by simp [isTypeOne, h]

/-- **The sets of words that extend a stem**, for a word of capitals and any lists of stems. The stems
listed are those that the lists keep. Sevens of type one, and eights from stems of seven letters, are
the words from which one letter can be taken out so that an anagram of such a stem is left. Eights of
type one are those from which two can, and besides only those that have among their letters the letters
of a stem of six bytes that are not all letters. -/
theorem member_iff_extends (c : Classifier) (v : Vocabulary) (lists : List (List Word)) {w : Word}
    (hw : w.InCapitals) :
    (∀ n s, s ∈ (StemIndex.ofLists lists).stems n ↔
      ∃ stem, KeepsStem lists stem ∧ stem.length = n ∧ stem.upper = s) ∧
    (c.member v (.ofLists lists) .typeOneSevens w = true ↔ w.length = 7 ∧
      ∃ stem, KeepsStem lists stem ∧ ∃ i < 7, (w.eraseIdx i).Perm stem.upper) ∧
    (c.member v (.ofLists lists) .eightsFromSevenLetterStems w = true ↔ w.length = 8 ∧
      ∃ stem, KeepsStem lists stem ∧ ∃ i < 8, (w.eraseIdx i).Perm stem.upper) ∧
    (c.member v (.ofLists lists) .typeOneEights w = true ↔ w.length = 8 ∧
      ((∃ stem, KeepsStem lists stem ∧
          ∃ i < 8, ∃ j < 7, ((w.eraseIdx i).eraseIdx j).Perm stem.upper) ∨
        ∃ stem, KeepsStem lists stem ∧ stem.length = 6 ∧ ¬stem.upper.InCapitals ∧
          stem.letters.Subperm w)) := by
  have hupper : w.upper = w := hw.isPlain.upper_eq
  have hascii : w.isAscii = true := hw.isPlain.isAscii_eq
  refine ⟨fun n s => StemIndex.mem_stems_ofLists, ?_, ?_, ?_⟩
  -- A type one seven adds one letter, and a type one eight two, each to a stem of six.
  · simp only [member, hascii, hupper, Bool.true_and, Bool.and_eq_true, beq_iff_eq]
    refine and_congr_right fun hlength => ?_
    rw [isTypeOne_of_seven hlength, StemIndex.oneShort_ofLists_iff hw, ← hlength]
    simp only [exists_eraseIdx_perm]
  · simp only [member, hascii, hupper, Bool.true_and, Bool.and_eq_true, beq_iff_eq]
    refine and_congr_right fun hlength => ?_
    rw [StemIndex.oneShort_ofLists_iff hw, ← hlength]
    simp only [exists_eraseIdx_perm]
  · simp only [member, hascii, hupper, Bool.true_and, Bool.and_eq_true, beq_iff_eq]
    refine and_congr_right fun hlength => ?_
    have hshort : w.length < maxLetterCount := by rw [hlength]; decide
    have hsix (n : Nat) : w.length = n + 2 ↔ n = 6 := by omega
    have herase (x : Word) : (∃ i < 8, ∃ j < 7, ((w.eraseIdx i).eraseIdx j).Perm x) ↔
        ∃ a b, w.Perm (a :: b :: x) := by
      rw [← exists_eraseIdx_eraseIdx_perm, hlength]
    rw [isTypeOne_of_eight hlength, StemIndex.twoShort_ofLists_cases hw hshort]
    simp only [hsix, herase]

/-- `STAIRWED` is of type one, for without its `W` and `D` it is an anagram of the first stem of a list
that is not empty; that stem is in lower case. -/
theorem member_of_satire :
    (Word.ofText "STAIRWED").InCapitals ∧
    KeepsStem [["", "satire", "TOOLONG"].map Word.ofText] (Word.ofText "satire") ∧
    (ofSettings .standard ⟨[], []⟩).member .empty
      (.ofLists [["", "satire", "TOOLONG"].map Word.ofText]) .typeOneEights
        (Word.ofText "STAIRWED") = true := by
  have hcapitals : (Word.ofText "STAIRWED").InCapitals := by decide +kernel
  have hkeeps : KeepsStem [["", "satire", "TOOLONG"].map Word.ofText] (Word.ofText "satire") :=
    ⟨_, List.mem_singleton_self _, by decide +kernel, by decide +kernel, _, rfl, rfl⟩
  refine ⟨hcapitals, hkeeps, ?_⟩
  obtain ⟨-, -, -, heights⟩ := member_iff_extends (ofSettings .standard ⟨[], []⟩) .empty
    [["", "satire", "TOOLONG"].map Word.ofText] hcapitals
  exact heights.mpr ⟨by decide +kernel,
    .inl ⟨_, hkeeps, 5, by decide, 6, by decide, by decide +kernel⟩⟩

/-- `ABCDEFGH` is of type one for the stem `ABCD-E`, although no letters can be taken out of it so that
an anagram of that stem is left. -/
theorem member_of_dashed_stem :
    (Word.ofText "ABCDEFGH").InCapitals ∧
    KeepsStem [[Word.ofText "ABCD-E"]] (Word.ofText "ABCD-E") ∧
    (ofSettings .standard ⟨[], []⟩).member .empty (.ofLists [[Word.ofText "ABCD-E"]]) .typeOneEights
      (Word.ofText "ABCDEFGH") = true ∧
    ¬∃ stem, KeepsStem [[Word.ofText "ABCD-E"]] stem ∧
      ∃ i < 8, ∃ j < 7, (((Word.ofText "ABCDEFGH").eraseIdx i).eraseIdx j).Perm stem.upper := by
  refine ⟨by decide +kernel, ⟨_, List.mem_singleton_self _, by decide +kernel, by decide +kernel, _,
    rfl, rfl⟩, by decide +kernel, ?_⟩
  rintro ⟨stem, ⟨list, hlist, hmem, -⟩, i, -, j, -, hperm⟩
  rw [List.mem_singleton.mp hlist, List.mem_singleton] at hmem
  -- The dash is no letter of the word.
  have hdash : 0x2D ∈ stem.upper := by rw [hmem]; decide +kernel
  have hword := List.eraseIdx_subset (List.eraseIdx_subset (hperm.mem_iff.mpr hdash))
  exact absurd hword (by decide +kernel)

end Classifier

end WordStudy
