import WordStudy.Lexicon.Stems
import WordStudy.Proofs.Word.Order

/-!
# Stems and their alphagrams

Stems are listed by their lengths, and whether a word extends one is asked of their alphagrams. The
two are kept side by side: the alphagrams are **those of the stems listed**, after any lists of
stems.
-/

namespace WordStudy

namespace StemIndex

/-! ## §1 Lists and alphagrams -/

/-- The stems of a list that are kept have one length. -/
theorem length_of_mem_kept {stems : List Word} {first : Word} {rest : List Word}
    (h : kept stems = first :: rest) {w : Word} (hw : w ∈ first :: rest) :
    w.length = first.length := by
  unfold kept at h
  dsimp only at h
  split at h
  · cases h
  · next head hhead =>
    -- The first stem that is kept is as long as all of them, and so is the one they are taken by.
    have hlength : ∀ v ∈ first :: rest, v.length = head.length := by
      intro v hv
      rw [← h] at hv
      exact beq_iff_eq.mp (List.mem_filter.mp hv).2
    rw [hlength w hw, hlength first (List.mem_cons_self ..)]

/-- **More stems** come behind those of the same length. -/
theorem stems_add (index : StemIndex) (stems : List Word) (length : Nat) :
    (index.add stems).1.stems length =
      index.stems length ++ (kept stems).filter (·.length == length) := by
  unfold add
  split
  · next hnone => simp [hnone]
  · next first rest hkept =>
    rw [hkept]
    -- All stems kept have the length of the first one, so they go into its list or into none.
    by_cases hlength : first.length = length
    · have hall : (first :: rest).filter (fun w => w.length == length) = first :: rest :=
        List.filter_eq_self.mpr fun w hw => beq_iff_eq.mpr
          ((length_of_mem_kept hkept hw).trans hlength)
      rw [hall]
      subst hlength
      simp only [StemIndex.stems, Std.TreeMap.getElem?_insert_self, Option.elim_some,
        StemList.extend]
      cases index.lists[first.length]? <;> rfl
    · have hnone : (first :: rest).filter (fun w => w.length == length) = [] :=
        List.filter_eq_nil_iff.mpr fun w hw heq => hlength
          ((length_of_mem_kept hkept hw).symm.trans (beq_iff_eq.mp heq))
      rw [hnone, List.append_nil]
      simp [StemIndex.stems, Std.TreeMap.getElem?_insert, hlength]

/-- **The alphagrams behind more stems** are those before them and those of the stems kept. -/
theorem contains_add (index : StemIndex) (stems : List Word) (length : Nat) (a : Word) :
    (index.add stems).1.contains length a =
      (index.contains length a ||
        (kept stems).any fun w => w.length == length && w.alphagram == a) := by
  unfold add
  split
  · next hnone => simp [hnone]
  · next first rest hkept =>
    rw [hkept]
    -- Again the stems kept are all of this length or none of them is.
    by_cases hlength : first.length = length
    · have hany : ((first :: rest).any fun w => w.length == length && w.alphagram == a) =
          (first :: rest).any (·.alphagram == a) := by
        rw [Bool.eq_iff_iff, List.any_eq_true, List.any_eq_true]
        refine exists_congr fun w => and_congr_right fun hw => ?_
        rw [(length_of_mem_kept hkept hw).trans hlength, beq_self_eq_true, Bool.true_and]
      rw [hany]
      subst hlength
      simp only [contains, Std.TreeMap.getElem?_insert_self, Option.any_some, StemList.extend,
        Word.contains_foldl_insert]
      cases index.lists[first.length]? <;> simp
    · have hnone : ((first :: rest).any fun w => w.length == length && w.alphagram == a) = false :=
        List.any_eq_false.mpr fun w hw => by
          rw [length_of_mem_kept hkept hw]
          simp [hlength]
      rw [hnone, Bool.or_false]
      simp [contains, Std.TreeMap.getElem?_insert, hlength]

/-- **The alphagrams are those of the stems.** -/
def IsListed (index : StemIndex) : Prop :=
  ∀ length a, index.contains length a = (index.stems length).any (·.alphagram == a)

theorem isListed_empty : empty.IsListed := by
  intro length a
  simp [contains, stems, empty]

theorem IsListed.add {index : StemIndex} (h : index.IsListed) (stems : List Word) :
    (index.add stems).1.IsListed := by
  intro length a
  rw [contains_add, stems_add, List.any_append, List.any_filter, h length a]

/-- Indexes with the same stems have the same alphagrams. -/
theorem IsListed.contains_eq {index index' : StemIndex} (h : index.IsListed)
    (h' : index'.IsListed) (hstems : ∀ length w, w ∈ index.stems length ↔ w ∈ index'.stems length)
    (length : Nat) (a : Word) : index.contains length a = index'.contains length a := by
  rw [h length a, h' length a, Bool.eq_iff_iff, List.any_eq_true, List.any_eq_true]
  simp only [hstems length]

theorem mem_alphagrams {index : StemIndex} {length : Nat} {a : Word} :
    a ∈ index.alphagrams length ↔ index.contains length a = true := by
  unfold alphagrams contains
  cases index.lists[length]? with
  | none => simp
  | some list =>
    rw [Option.elim_some, Option.any_some, Std.TreeMap.map_fst_toList_eq_keys,
      Std.TreeMap.mem_keys, Std.TreeMap.contains_iff_mem]

/-! ## §2 Words that extend a stem -/

/-- A deletion takes out the byte at one place. -/
theorem deletions_eq_map (w : Word) : deletions w = (List.range w.length).map w.eraseIdx := by
  induction w with
  | nil => rfl
  | cons b w ih =>
    rw [deletions, ih, List.length_cons, List.range_succ_eq_map, List.map_cons, List.map_map,
      List.map_map]
    rfl

/-- **Whether a word extends a stem** depends on the alphagrams only. -/
theorem oneShort_congr {index index' : StemIndex}
    (h : ∀ length a, index.contains length a = index'.contains length a) (w : Word) :
    index.oneShort w = index'.oneShort w := by
  unfold oneShort
  rw [funext (h (w.length - 1))]

theorem twoShort_congr {index index' : StemIndex}
    (h : ∀ length a, index.contains length a = index'.contains length a) (w : Word) :
    index.twoShort w = index'.twoShort w := by
  unfold twoShort
  rw [Bool.eq_iff_iff, List.any_eq_true, List.any_eq_true]
  simp only [mem_alphagrams, h]

end StemIndex

end WordStudy
