import WordStudy.Graph.Insert
import WordStudy.Proofs.Graph.Order

/-!
# The words after an insertion

Adding a word to sorted edges leaves them sorted, adds that word to the list and changes no other.
-/

namespace WordStudy

@[simp] theorem Mark.terminal_thaw (m : Mark) (next : Nat) :
    (m.thaw next).1.terminal = m.terminal := by
  unfold thaw
  split <;> rfl

namespace Edges

/-! ## §1 A chain of new nodes -/

/-- A chain spells one word, in front of the words of the other edges. -/
theorem mem_words_chain (l : UInt8) (w : Word) (next : Nat) (others : Edges) (v : Word) :
    v ∈ (chain l w next others).words ↔ v = l :: w ∨ v ∈ others.words := by
  induction w generalizing l next others v with
  | nil => simp [chain, words]
  | cons c w ih =>
    simp only [chain, mem_words_edge, ih]
    simp [words]

@[simp] theorem letters_chain (l : UInt8) (w : Word) (next : Nat) (others : Edges) :
    (chain l w next others).letters = l :: others.letters := by
  cases w <;> rfl

/-- A chain in front of edges with greater letters is sorted. -/
theorem sorted_chain {l : UInt8} {others : Edges} (hothers : others.Sorted)
    (hl : ∀ k ∈ others.letters, l < k) (w : Word) (next : Nat) :
    (chain l w next others).Sorted := by
  induction w generalizing l next others with
  | nil => exact ⟨trivial, hl, hothers⟩
  | cons c w ih => exact ⟨ih (show nil.Sorted from trivial) (by simp) (next + 1), hl, hothers⟩

/-! ## §2 Insertion along the edges -/

/-- **Insertion adds one word** and takes none away. -/
theorem mem_words_insert (e : Edges) (l : UInt8) (w : Word) (next : Nat) (v : Word) :
    v ∈ (e.insert l w next).1.words ↔ v = l :: w ∨ v ∈ e.words := by
  induction e generalizing l w next v with
  | nil => simp [insert, mem_words_chain]
  | edge k m below others ihBelow ihOthers =>
    simp only [insert]
    -- In front of a greater letter, along the edge of the same letter, or behind a smaller one.
    split
    · exact mem_words_chain l w next _ v
    split
    · next heq =>
      subst heq
      cases w with
      | nil => grind [mem_words_edge, Mark.terminal_thaw]
      | cons c w =>
        simp only [mem_words_edge, ihBelow, Mark.terminal_thaw]
        grind
    · simp only [mem_words_edge, ihOthers]
      grind

/-- The only new letter of the first node is the first one of the word. -/
theorem mem_letters_insert {e : Edges} {l : UInt8} {w : Word} {next : Nat} {k : UInt8}
    (h : k ∈ (e.insert l w next).1.letters) : k = l ∨ k ∈ e.letters := by
  induction e generalizing next with
  | nil => simpa [insert] using h
  | edge j m below others _ ihOthers =>
    simp only [insert] at h
    split at h
    · simpa using h
    split at h
    · cases w <;> simp at h ⊢ <;> grind
    · simp only [letters_edge, List.mem_cons] at h ⊢
      rcases h with rfl | h
      · exact .inr (.inl rfl)
      · exact (ihOthers h).imp_right .inr

/-- **Insertion keeps edges sorted.** -/
theorem Sorted.insert {e : Edges} (h : e.Sorted) (l : UInt8) (w : Word) (next : Nat) :
    (e.insert l w next).1.Sorted := by
  induction e generalizing l w next with
  | nil => exact sorted_chain (show nil.Sorted from trivial) (by simp) w next
  | edge k m below others ihBelow ihOthers =>
    obtain ⟨hbelow, hletters, hothers⟩ := id h
    simp only [Edges.insert]
    split
    · next hlt =>
      -- The chain comes first, so its letter must be smaller than all others.
      refine sorted_chain h ?_ w next
      intro j hj
      rcases List.mem_cons.mp hj with rfl | hj
      · exact hlt
      · exact UInt8.lt_trans hlt (hletters j hj)
    split
    · cases w with
      | nil => exact h
      | cons c w => exact ⟨ihBelow hbelow c w _, hletters, hothers⟩
    · next hnlt hne =>
      -- The only letter that may come in among the others is greater than the first.
      refine ⟨hbelow, ?_, ihOthers hothers l w next⟩
      intro j hj
      rcases mem_letters_insert hj with rfl | hj
      · exact UInt8.lt_of_le_of_ne (UInt8.not_lt.mp hnlt) (Ne.symm hne)
      · exact hletters j hj

end Edges

/-! ## §3 Insertion into a graph -/

namespace WordGraph

/-- What insertion does to a word that is new. -/
theorem insert_of_new {g : WordGraph} {l : UInt8} {w : Word} (h : g.contains (l :: w) = false) :
    g.insert (l :: w) =
      ({ root := ⟨(g.root.mark.thaw g.size).1,
                  (g.root.edges.insert l w (g.root.mark.thaw g.size).2).1⟩
         size := (g.root.edges.insert l w (g.root.mark.thaw g.size).2).2
         wordCount := g.wordCount + 1 }, true) := by
  simp [insert, h]

/-- A word that is empty or there already changes nothing. -/
theorem insert_of_not_new {g : WordGraph} {w : Word} (h : w = [] ∨ g.contains w = true) :
    g.insert w = (g, false) := by
  cases w with
  | nil => rfl
  | cons l w => simp [insert, h.resolve_left (by simp)]

theorem insert_isNew (g : WordGraph) (w : Word) :
    (g.insert w).2 = true ↔ w ≠ [] ∧ g.contains w = false := by
  cases w with
  | nil => simp [insert]
  | cons l w =>
    cases h : g.contains (l :: w) with
    | true => simp [insert_of_not_new (.inr h)]
    | false => simp [insert_of_new h]

/-- **The words behind an insertion** are those before it and the new one. -/
theorem mem_words_insert {g : WordGraph} (hsorted : g.root.edges.Sorted) (w v : Word) :
    v ∈ (g.insert w).1.words ↔ (v = w ∧ w ≠ []) ∨ v ∈ g.words := by
  cases w with
  | nil => simp [insert]
  | cons l w =>
    cases h : g.contains (l :: w) with
    | true =>
      have hmem : l :: w ∈ g.words := (contains_iff_mem_words hsorted _).mp h
      rw [insert_of_not_new (.inr h)]
      grind
    | false =>
      rw [insert_of_new h]
      simp [words, Edges.mem_words_insert]

theorem sorted_insert {g : WordGraph} (hsorted : g.root.edges.Sorted) (w : Word) :
    (g.insert w).1.root.edges.Sorted := by
  cases w with
  | nil => exact hsorted
  | cons l w =>
    cases h : g.contains (l :: w) with
    | true =>
      rw [insert_of_not_new (.inr h)]
      exact hsorted
    | false =>
      rw [insert_of_new h]
      exact hsorted.insert l w _

/-- **The number of words grows by one** with every new word. -/
theorem length_words_insert {g : WordGraph} (hsorted : g.root.edges.Sorted) (w : Word) :
    (g.insert w).1.words.length = g.words.length + (g.insert w).2.toNat := by
  by_cases hnew : w ≠ [] ∧ g.contains w = false
  · have hflag : (g.insert w).2 = true := (g.insert_isNew w).mpr hnew
    have hnotin : w ∉ g.words := by
      rw [← contains_iff_mem_words hsorted, hnew.2]
      simp
    -- Both lists have no word twice, so the new one is the old one with `w` in front, reordered.
    have hnodup : (g.insert w).1.words.Nodup := (sorted_insert hsorted w).ascending_words.nodup
    have hnodup' : (w :: g.words).Nodup :=
      List.nodup_cons.mpr ⟨hnotin, hsorted.ascending_words.nodup⟩
    have hperm : (g.insert w).1.words.Perm (w :: g.words) := by
      refine (List.perm_ext_iff_of_nodup hnodup hnodup').mpr ?_
      intro v
      rw [mem_words_insert hsorted]
      simp [hnew.1]
    rw [hperm.length_eq, hflag]
    rfl
  · have hold : w = [] ∨ g.contains w = true := by
      by_cases hw : w = []
      · exact .inl hw
      · exact .inr (by simpa [hw] using hnew)
    rw [insert_of_not_new hold]
    rfl

@[simp] theorem wordCount_insert (g : WordGraph) (w : Word) :
    (g.insert w).1.wordCount = g.wordCount + (g.insert w).2.toNat := by
  cases w with
  | nil => rfl
  | cons l w =>
    cases h : g.contains (l :: w) with
    | true =>
      rw [insert_of_not_new (.inr h)]
      rfl
    | false =>
      rw [insert_of_new h]
      rfl

end WordGraph

end WordStudy
