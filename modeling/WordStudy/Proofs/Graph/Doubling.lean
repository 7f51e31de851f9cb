import Mathlib.Data.List.Perm.Subperm
import WordStudy.Proofs.Graph.Layout
import WordStudy.Proofs.Graph.Reading

/-!
# An image of very many words

An image shares what words have in common, so that few bytes make a great many words. In the one here,
64 nodes stand in a row, with two edges from each to the next. Its words are **all words of 64 letters
that are `A` or `B`**, more than a number of 64 bits can tell; and there are more of them with 32
letters of either kind than a number of 32 bits can tell.
-/

namespace WordStudy

/-! ## §1 Words that are put together of two pieces -/

/-- All words of so many pieces, each of them one of two. -/
def choices (u v : Word) : Nat → List Word
  | 0 => [[]]
  | n + 1 => (choices u v n).map (u ++ ·) ++ (choices u v n).map (v ++ ·)

theorem length_choices (u v : Word) (n : Nat) : (choices u v n).length = 2 ^ n := by
  induction n with
  | zero => rfl
  | succ n ih =>
    simp only [choices, List.length_append, List.length_map, ih, Nat.pow_succ]
    omega

/-- Two different pieces of one length are told apart wherever they stand. -/
theorem nodup_choices {u v : Word} (hlength : u.length = v.length) (hne : u ≠ v) (n : Nat) :
    (choices u v n).Nodup := by
  induction n with
  | zero => exact List.nodup_singleton _
  | succ n ih =>
    refine List.nodup_append.mpr ⟨ih.map fun _ _ => List.append_cancel_left,
      ih.map fun _ _ => List.append_cancel_left, ?_⟩
    intro w hw w' hw' heq
    obtain ⟨x, -, rfl⟩ := List.mem_map.mp hw
    obtain ⟨y, -, rfl⟩ := List.mem_map.mp hw'
    exact hne (List.append_inj_left heq hlength)

/-- **What holds along pieces** holds of every word put together of them. -/
theorem forall_mem_choices {u v : Word} {p : Nat → Word → Prop} (hnil : p 0 [])
    (happend : ∀ n w, p n w → p (n + 1) (u ++ w) ∧ p (n + 1) (v ++ w)) (n : Nat) :
    ∀ w ∈ choices u v n, p n w := by
  induction n with
  | zero => exact List.forall_mem_singleton.mpr hnil
  | succ n ih =>
    intro w hw
    rcases List.mem_append.mp hw with hw | hw <;> obtain ⟨x, hx, rfl⟩ := List.mem_map.mp hw
    · exact (happend n x (ih x hx)).1
    · exact (happend n x (ih x hx)).2

/-- If these words are among others and have a property, **as many of the others** have it. -/
theorem two_pow_le_countP {u v : Word} (hlength : u.length = v.length) (hne : u ≠ v) {n : Nat}
    {words : List Word} {p : Word → Bool} (h : ∀ w ∈ choices u v n, w ∈ words ∧ p w = true) :
    2 ^ n ≤ words.countP p := by
  have hsub : choices u v n ⊆ words.filter p := fun w hw => List.mem_filter.mpr (h w hw)
  rw [List.countP_eq_length_filter, ← length_choices u v n]
  exact ((nodup_choices hlength hne n).subperm hsub).length_le

/-! ## §2 The image -/

namespace Image

/-- The run of a node in the row; behind the last edge there is none. -/
def doublingRun (i : Nat) : Nat := if i = maxDepth then 0 else 2 * i + 1

/-- The entries: behind that of the root, two for each node in the row. -/
def doublingTable : Array Nat :=
  (doublingRun 0 * 0x400 :: (List.range maxDepth).flatMap fun i =>
    [entryOf 0x41 (i + 1 == maxDepth) false (doublingRun (i + 1)),
      entryOf 0x42 (i + 1 == maxDepth) true (doublingRun (i + 1))]).toArray

/-- The bytes of the image. -/
def doubling : List UInt8 :=
  magic ++ wordBytes doublingTable.size ++ doublingTable.toList.flatMap wordBytes

theorem isImage_doubling : IsImage doubling doublingTable where
  bytes_eq := rfl
  size_pos := by decide +kernel
  size_lt := by decide +kernel
  entries_lt := by decide +kernel

/-- **The run of a node** is an `A` and a `B`, which both lead to the next node. -/
theorem entries_doubling {i : Nat} (hi : i < maxDepth) :
    doublingTable[doublingRun i]? =
        some (entryOf 0x41 (i + 1 == maxDepth) false (doublingRun (i + 1))) ∧
      doublingTable[doublingRun i + 1]? =
        some (entryOf 0x42 (i + 1 == maxDepth) true (doublingRun (i + 1))) := by
  revert i
  decide +kernel

theorem doublingRun_ne_zero {i : Nat} (hi : i < maxDepth) : doublingRun i ≠ 0 := by
  rw [doublingRun, if_neg (by omega)]
  omega

theorem isEdge_doubling_iff {i entry : Nat} (hi : i < maxDepth) :
    IsEdge doublingTable (doublingRun i) entry ↔
      entry = entryOf 0x41 (i + 1 == maxDepth) false (doublingRun (i + 1)) ∨
        entry = entryOf 0x42 (i + 1 == maxDepth) true (doublingRun (i + 1)) := by
  obtain ⟨ha, hb⟩ := entries_doubling hi
  rw [IsEdge, inRun_of_more ha (isLast_entryOf ..), inRun_of_last hb (isLast_entryOf ..)]
  simp [doublingRun_ne_zero hi]

/-- **Every edge leads one node on.** -/
theorem isEdge_doubling {i entry : Nat} (h : IsEdge doublingTable (doublingRun i) entry)
    (hi : i ≤ maxDepth) : i < maxDepth ∧ runOf entry = doublingRun (i + 1) := by
  have hlt : i < maxDepth := by
    refine Nat.lt_of_le_of_ne hi ?_
    rintro rfl
    exact h.1 (if_pos rfl)
  refine ⟨hlt, ?_⟩
  rcases (isEdge_doubling_iff hlt).mp h with rfl | rfl <;> exact runOf_entryOf ..

/-- **From a node on**, only nodes behind it are reached. -/
theorem exists_of_transGen_leads {i : Nat} (hi : i ≤ maxDepth) {run : Nat}
    (h : Relation.TransGen (Leads doublingTable) (doublingRun i) run) :
    ∃ j, i < j ∧ j ≤ maxDepth ∧ run = doublingRun j := by
  induction h with
  | single hleads =>
    obtain ⟨entry, hedge, rfl⟩ := hleads
    obtain ⟨hlt, hrun⟩ := isEdge_doubling hedge hi
    exact ⟨i + 1, Nat.lt_succ_self i, hlt, hrun⟩
  | tail _ hleads ih =>
    obtain ⟨j, hij, hj, rfl⟩ := ih
    obtain ⟨entry, hedge, rfl⟩ := hleads
    obtain ⟨hlt, hrun⟩ := isEdge_doubling hedge hj
    exact ⟨j + 1, by omega, hlt, hrun⟩

theorem isWellFormed_doubling : IsWellFormed doublingTable (doublingRun 0) := by
  have hreached {run : Nat} (h : Reaches doublingTable (doublingRun 0) run) :
      ∃ i, i ≤ maxDepth ∧ run = doublingRun i := by
    rcases Relation.reflTransGen_iff_eq_or_transGen.mp h with rfl | h
    · exact ⟨0, Nat.zero_le _, rfl⟩
    · obtain ⟨i, -, hi, hrun⟩ := exists_of_transGen_leads (Nat.zero_le _) h
      exact ⟨i, hi, hrun⟩
  constructor
  · intro run hrun hne
    obtain ⟨i, hi, rfl⟩ := hreached hrun
    have hlt : i < maxDepth := by
      refine Nat.lt_of_le_of_ne hi ?_
      rintro rfl
      exact hne (if_pos rfl)
    obtain ⟨ha, hb⟩ := entries_doubling hlt
    exact .more ha (by simp [isUpper]) (isLast_entryOf ..) hb (by simp)
      (.last hb (by simp [isUpper]) (isLast_entryOf ..))
  · intro run hrun hcycle
    obtain ⟨i, hi, rfl⟩ := hreached hrun
    obtain ⟨j, hij, hj, hsame⟩ := exists_of_transGen_leads hi hcycle
    -- Different nodes have different runs.
    simp only [doublingRun] at hsame
    split at hsame <;> split at hsame <;> omega

/-- A path goes no further than to the end of the row. -/
theorem length_le_of_isPath_doubling {run : Nat} {path : List Nat}
    (h : IsPath doublingTable run path) {i : Nat} (hi : i ≤ maxDepth) (hrun : run = doublingRun i) :
    path.length ≤ maxDepth - i := by
  induction h generalizing i with
  | nil => exact Nat.zero_le _
  | cons hedge _ ih =>
    subst hrun
    obtain ⟨hlt, hnext⟩ := isEdge_doubling hedge hi
    have hrest := ih hlt hnext
    rw [List.length_cons]
    omega

/-- **Any word of `A` and `B`** that reaches the end of the row is spelled. -/
theorem spells_doubling {w : Word} (hletters : ∀ l ∈ w, l = 0x41 ∨ l = 0x42) (hne : w ≠ []) {i : Nat}
    (hlength : i + w.length = maxDepth) : Spells doublingTable (doublingRun i) w := by
  induction w generalizing i with
  | nil => exact absurd rfl hne
  | cons l w ih =>
    rw [List.length_cons] at hlength
    obtain ⟨hl, hletters⟩ := List.forall_mem_cons.mp hletters
    have hi : i < maxDepth := by omega
    -- Both letters have an edge here, and both lead to the next run.
    obtain ⟨last, hedge⟩ : ∃ last, IsEdge doublingTable (doublingRun i)
        (entryOf l (i + 1 == maxDepth) last (doublingRun (i + 1))) := by
      simp only [isEdge_doubling_iff hi]
      rcases hl with rfl | rfl
      · exact ⟨_, .inl rfl⟩
      · exact ⟨_, .inr rfl⟩
    refine spells_iff.mpr ⟨_, hedge, ?_⟩
    rw [letterOf_entryOf, isTerminal_entryOf, runOf_entryOf]
    cases w with
    -- Only the edges to the last run end a word.
    | nil => exact .inl ⟨by simpa using hlength, rfl⟩
    | cons l' w => exact .inr ⟨_, ih hletters (List.cons_ne_nil _ _) (by omega), rfl⟩

/-- **The image is read**, and the words of its graph are all words of 64 letters that are `A` or
`B`. -/
theorem exists_decode_doubling :
    ∃ g, decode doubling = .ok g ∧
      ∀ w : Word, w.length = maxDepth → (∀ l ∈ w, l = 0x41 ∨ l = 0x42) → w ∈ g.words := by
  have hroot : rootRun doublingTable = doublingRun 0 := by decide +kernel
  obtain ⟨g, hread⟩ := exists_decode isImage_doubling (hroot ▸ isWellFormed_doubling) fun path hpath =>
    length_le_of_isPath_doubling hpath (Nat.zero_le _) hroot
  refine ⟨g, hread, ?_⟩
  -- What was read unfolds the table that was written, as the image has one table only.
  obtain ⟨table, named, himage, hnaming, -, hunfolds⟩ := unfolds_of_decode hread
  obtain rfl := himage.unique isImage_doubling
  intro w hlength hletters
  apply (hunfolds.mem_words_iff hnaming.terminal_eq w).mpr
  rw [hroot]
  refine spells_doubling hletters ?_ ((Nat.zero_add _).trans hlength)
  rintro rfl
  cases hlength

end Image

end WordStudy
