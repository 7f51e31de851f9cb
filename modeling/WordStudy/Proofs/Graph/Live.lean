import WordStudy.Proofs.Graph.History

/-!
# Graphs without dead ends

A graph that is made by insertions and merges is **live**: a word ends at every node below the
root, or the node has edges. So every path along its edges is the beginning of a word, and what
holds of the letters and lengths of its words holds of its edges and paths. No word ends at the
root, for the empty word is never added.
-/

namespace WordStudy

open Text

namespace Edges

/-! ## §1 Live edges -/

/-- **A word ends at every node, or the node has edges.** -/
def Live : Edges → Prop
  | nil => True
  | edge _ m below others => (m.terminal = true ∨ below ≠ nil) ∧ below.Live ∧ others.Live

/-- All edges have upper-case letters. -/
def Upper : Edges → Prop
  | nil => True
  | edge l _ below others => isUpper l = true ∧ below.Upper ∧ others.Upper

@[simp] theorem bare_eq_nil_iff {e : Edges} : e.bare = nil ↔ e = nil := by
  cases e <;> simp [bare]

@[simp] theorem live_bare (e : Edges) : e.bare.Live ↔ e.Live := by
  induction e with
  | nil => rfl
  | edge l m below others ihBelow ihOthers => simp [bare, Live, ihBelow, ihOthers]

/-- Live edges spell a word. -/
theorem Live.exists_word {e : Edges} (h : e.Live) (hne : e ≠ nil) : ∃ w, w ∈ e.words := by
  induction e with
  | nil => exact absurd rfl hne
  | edge l m below others ihBelow _ =>
    obtain ⟨hend | hmore, hbelow, -⟩ := h
    · exact ⟨[l], mem_words_edge.mpr (.inl ⟨hend, rfl⟩)⟩
    · obtain ⟨w, hw⟩ := ihBelow hbelow hmore
      exact ⟨l :: w, mem_words_edge.mpr (.inr (.inl ⟨w, hw, rfl⟩))⟩

/-- A word begins with the letter of the first live edge. -/
theorem Live.exists_cons {l : UInt8} {m : Mark} {below others : Edges}
    (h : (edge l m below others).Live) : ∃ w, l :: w ∈ (edge l m below others).words := by
  obtain ⟨hend | hmore, hbelow, -⟩ := h
  · exact ⟨[], mem_words_edge.mpr (.inl ⟨hend, rfl⟩)⟩
  · obtain ⟨w, hw⟩ := hbelow.exists_word hmore
    exact ⟨w, mem_words_edge.mpr (.inr (.inl ⟨w, hw, rfl⟩))⟩

/-- **Live edges to words in upper case** have upper-case letters. -/
theorem Live.upper {e : Edges} (h : e.Live) (hwords : e.InCapitals) : e.Upper := by
  induction e with
  | nil => trivial
  | edge l m below others ihBelow ihOthers =>
    obtain ⟨w, hw⟩ := h.exists_cons
    refine ⟨hwords _ hw l (by simp), ihBelow h.2.1 ?_, ihOthers h.2.2 ?_⟩
    · intro v hv
      exact (hwords (l :: v) (mem_words_edge.mpr (.inr (.inl ⟨v, hv, rfl⟩)))).of_cons
    · exact fun v hv => hwords v (mem_words_edge.mpr (.inr (.inr hv)))

/-- The number of edges on the longest path. -/
def height : Edges → Nat
  | nil => 0
  | edge _ _ below others => max (below.height + 1) others.height

@[simp] theorem height_bare (e : Edges) : e.bare.height = e.height := by
  induction e with
  | nil => rfl
  | edge l m below others ihBelow ihOthers => simp [bare, height, ihBelow, ihOthers]

/-- **Live edges go no deeper than their words**: the longest path ends with one. -/
theorem Live.exists_word_of_lt_height {e : Edges} (h : e.Live) {n : Nat} (hn : n < e.height) :
    ∃ w ∈ e.words, n < w.length := by
  induction e generalizing n with
  | nil => cases hn
  | edge l m below others ihBelow ihOthers =>
    -- The longest path goes through the first edge or through another one.
    have hbranch : n < below.height + 1 ∨ n < others.height := by
      rw [height] at hn
      omega
    rcases hbranch with hbelow | hothers
    · cases n with
      | zero =>
        obtain ⟨w, hw⟩ := h.exists_cons
        exact ⟨l :: w, hw, Nat.succ_pos _⟩
      | succ n =>
        obtain ⟨w, hw, hlength⟩ := ihBelow h.2.1 (Nat.lt_of_succ_lt_succ hbelow)
        exact ⟨l :: w, mem_words_edge.mpr (.inr (.inl ⟨w, hw, rfl⟩)), Nat.succ_lt_succ hlength⟩
    · obtain ⟨w, hw, hlength⟩ := ihOthers h.2.2 hothers
      exact ⟨w, mem_words_edge.mpr (.inr (.inr hw)), hlength⟩

/-! ## §2 Insertion -/

theorem chain_ne_nil (l : UInt8) (w : Word) (next : Nat) (others : Edges) :
    chain l w next others ≠ nil := by
  cases w <;> simp [chain]

theorem insert_ne_nil (e : Edges) (l : UInt8) (w : Word) (next : Nat) :
    (e.insert l w next).1 ≠ nil := by
  cases e with
  | nil => exact chain_ne_nil _ _ _ _
  | edge k m below others =>
    simp only [insert]
    split
    · exact chain_ne_nil _ _ _ _
    split
    · cases w <;> simp
    · simp

theorem Live.chain {others : Edges} (h : others.Live) (l : UInt8) (w : Word) (next : Nat) :
    (chain l w next others).Live := by
  induction w generalizing l next others with
  | nil => exact ⟨.inl rfl, trivial, h⟩
  | cons c w ih => exact ⟨.inr (chain_ne_nil _ _ _ _), ih (show nil.Live from trivial) c _, h⟩

/-- **Insertion keeps edges live.** -/
theorem Live.insert {e : Edges} (h : e.Live) (l : UInt8) (w : Word) (next : Nat) :
    (e.insert l w next).1.Live := by
  induction e generalizing l w next with
  | nil => exact h.chain l w next
  | edge k m below others ihBelow ihOthers =>
    obtain ⟨hnode, hbelow, hothers⟩ := id h
    -- In front of a greater letter, along the edge of the same letter, or behind a smaller one.
    simp only [Edges.insert]
    split
    · exact h.chain l w next
    split
    · cases w with
      | nil => exact ⟨.inl rfl, hbelow, hothers⟩
      | cons c w => exact ⟨.inr (insert_ne_nil _ _ _ _), ihBelow hbelow c w _, hothers⟩
    · exact ⟨hnode, hbelow, ihOthers hothers l w next⟩

end Edges

/-! ## §3 Runs -/

namespace WordGraph

/-- **The graph has no dead ends**, and the empty word is not one of its words. -/
structure IsLive (g : WordGraph) : Prop where
  root : g.root.mark.terminal = false
  edges : g.root.edges.Live

theorem isLive_empty : empty.IsLive := ⟨rfl, trivial⟩

theorem IsLive.perform {g : WordGraph} (h : g.IsLive) (hsound : g.IsSound) (step : GraphStep) :
    (g.perform step).IsLive := by
  cases step with
  | insert w =>
    show (g.insert w).1.IsLive
    -- Only a new word changes the graph; it ends below the root.
    by_cases hnew : w ≠ [] ∧ g.contains w = false
    · obtain ⟨hne, hcontains⟩ := hnew
      obtain ⟨l, v, rfl⟩ := List.exists_cons_of_ne_nil hne
      rw [insert_of_new hcontains]
      exact ⟨by simp [h.root], h.edges.insert l v _⟩
    · rw [insert_of_not_new (by grind)]
      exact h
  | merge =>
    -- Being live does not depend on numbers, and merging changes nothing else.
    obtain ⟨-, hterminal, hbare⟩ := merge_spec hsound.sharesSoundly
    refine ⟨hterminal.trans h.root, ?_⟩
    rw [← Edges.live_bare]
    show g.merge.root.edges.bare.Live
    rw [hbare, Edges.live_bare]
    exact h.edges

/-- **No run makes a dead end.** -/
theorem IsLive.run {g : WordGraph} (h : g.IsLive) (hsound : g.IsSound) (steps : List GraphStep) :
    (g.run steps).IsLive := by
  induction steps generalizing g with
  | nil => exact h
  | cons step steps ih => exact ih (h.perform hsound step) (hsound.perform step)

end WordGraph

end WordStudy
