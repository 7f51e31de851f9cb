import WordStudy.Graph.Basic
import WordStudy.Proofs.Word.Order

/-!
# The words of a sorted graph

A graph is **sorted** if the edges of every node are in strictly ascending order of their letters.
Such a graph lists its words in ascending order, each once, and the words listed are just those
that can be spelled from the root to a node at which a word ends.
-/

namespace WordStudy

namespace Edges

/-! ## §1 Views of an edge -/

@[simp] theorem letters_nil : letters nil = [] := rfl

@[simp] theorem letters_edge (l : UInt8) (m : Mark) (below others : Edges) :
    (edge l m below others).letters = l :: others.letters := rfl

/-- The words along an edge and those along the edges behind it. -/
theorem mem_words_edge {l : UInt8} {m : Mark} {below others : Edges} {w : Word} :
    w ∈ (edge l m below others).words ↔
      (m.terminal = true ∧ w = [l]) ∨ (∃ v ∈ below.words, w = l :: v) ∨ w ∈ others.words := by
  simp only [words]
  cases m.terminal <;> simp [eq_comm]

/-- Every word begins with the letter of one of the edges. -/
theorem exists_letter_of_mem_words {e : Edges} {w : Word} (h : w ∈ e.words) :
    ∃ l ∈ e.letters, ∃ v, w = l :: v := by
  induction e with
  | nil => simp [words] at h
  | edge l m below others _ ihOthers =>
    rcases mem_words_edge.mp h with ⟨_, rfl⟩ | ⟨v, _, rfl⟩ | hothers
    · exact ⟨l, by simp, [], rfl⟩
    · exact ⟨l, by simp, v, rfl⟩
    · obtain ⟨k, hk, v, rfl⟩ := ihOthers hothers
      exact ⟨k, by simp [hk], v, rfl⟩

theorem nil_notMem_words (e : Edges) : [] ∉ e.words := by
  intro h
  obtain ⟨l, _, v, hv⟩ := exists_letter_of_mem_words h
  cases hv

/-! ## §2 Sorted edges -/

/-- **Every node has its edges in strictly ascending order** of their letters. -/
def Sorted : Edges → Prop
  | nil => True
  | edge l _ below others => below.Sorted ∧ (∀ k ∈ others.letters, l < k) ∧ others.Sorted

/-- A word that begins with the letter of the first edge is not spelled along a later one. -/
theorem Sorted.cons_notMem_others {l : UInt8} {m : Mark} {below others : Edges}
    (h : (edge l m below others).Sorted) (w : Word) : l :: w ∉ others.words := by
  intro hw
  obtain ⟨k, hk, v, heq⟩ := exists_letter_of_mem_words hw
  cases heq
  exact absurd (h.2.1 l hk) (UInt8.lt_irrefl l)

/-- **The words of sorted edges are ascending.** -/
theorem Sorted.ascending_words {e : Edges} (h : e.Sorted) : Word.Ascending e.words := by
  induction e with
  | nil => exact .nil
  | edge l m below others ihBelow ihOthers =>
    obtain ⟨hbelow, hletters, hothers⟩ := h
    have hlonger : Word.Ascending (below.words.map (l :: ·)) := (ihBelow hbelow).map_cons l
    -- The word that is the letter alone comes before all longer ones along the same edge.
    have hhere : Word.Ascending
        (if m.terminal then [l] :: below.words.map (l :: ·) else below.words.map (l :: ·)) := by
      split
      · refine List.pairwise_cons.mpr ⟨?_, hlonger⟩
        intro v hv
        obtain ⟨u, hu, rfl⟩ := List.mem_map.mp hv
        obtain ⟨k, _, t, rfl⟩ := exists_letter_of_mem_words hu
        simp
      · exact hlonger
    refine List.pairwise_append.mpr ⟨hhere, ihOthers hothers, ?_⟩
    -- A word along this edge begins with a smaller letter than one along a later edge.
    intro v hv w hw
    have hfirst : ∃ t, v = l :: t := by
      split at hv <;> simp at hv <;> grind
    obtain ⟨t, rfl⟩ := hfirst
    obtain ⟨k, hk, u, rfl⟩ := exists_letter_of_mem_words hw
    exact Word.order_of_first_lt (hletters k hk) t u

/-! ## §3 Walking -/

/-- **A word is listed exactly if it can be spelled** to a node at which a word ends. -/
theorem Sorted.mem_words_iff {e : Edges} (h : e.Sorted) (m : Mark) (l : UInt8) (w : Word) :
    l :: w ∈ e.words ↔ ∃ n, Node.walk ⟨m, e⟩ (l :: w) = some n ∧ n.mark.terminal = true := by
  induction e generalizing m l w with
  | nil => simp [words, Node.walk, child?]
  | edge k mark below others ihBelow ihOthers =>
    obtain ⟨hbelow, hletters, hothers⟩ := id h
    -- A walk takes the first edge with the letter, and sorted edges have no second one.
    by_cases hk : k = l
    · subst hk
      rw [mem_words_edge]
      simp only [h.cons_notMem_others w, or_false, Node.walk, child?, if_true, Option.bind_some]
      cases w with
      | nil => simp [Node.walk, nil_notMem_words]
      | cons c w =>
        have hrest := ihBelow hbelow mark c w
        simp only [List.cons.injEq, List.cons_ne_nil, and_false, and_false, false_or,
          true_and, exists_eq_right', hrest]
    · rw [mem_words_edge]
      have hothers' := ihOthers hothers m l w
      simp only [Node.walk, child?, hk, if_false] at hothers' ⊢
      rw [hothers']
      constructor
      · rintro (⟨_, heq⟩ | ⟨v, _, heq⟩ | hwalk)
        · exact absurd (List.cons.inj heq).1.symm hk
        · exact absurd (List.cons.inj heq).1.symm hk
        · exact hwalk
      · exact fun hwalk => .inr (.inr hwalk)

end Edges

namespace WordGraph

/-- A sorted graph has a word exactly if it lists it. -/
theorem contains_iff_mem_words {g : WordGraph} (h : g.root.edges.Sorted) (w : Word) :
    g.contains w = true ↔ w ∈ g.words := by
  cases w with
  | nil => simp [contains, words, Edges.nil_notMem_words]
  | cons l w =>
    rw [words, h.mem_words_iff g.root.mark l w]
    simp [contains, walk, Option.any_eq_true]

end WordGraph

end WordStudy
