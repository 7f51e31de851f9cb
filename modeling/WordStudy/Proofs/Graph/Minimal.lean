import Mathlib.Data.Set.Card
import Mathlib.Order.Interval.Set.Nat
import WordStudy.Proofs.Graph.Canonical
import WordStudy.Proofs.Graph.Hooks

/-!
# Merged graphs are the smallest ones

What can be spelled from a node to the end of a word are its **endings**. A word graph needs a node
for each set of endings that the beginnings of its words have, and a merged graph has no more than
these: all its numbers are on nodes that the root leads to, and nodes with the same endings are one
node. That rests on there being no dead ends, from which nothing at all is spelled.
-/

namespace WordStudy

/-! ## §1 Nodes and paths -/

namespace Edges

/-- Below live edges there is no dead end. -/
theorem Live.of_mem_nodes {e : Edges} (h : e.Live) {n : Node} (hn : n ∈ e.nodes) :
    (n.mark.terminal = true ∨ n.edges ≠ nil) ∧ n.edges.Live := by
  induction e with
  | nil => cases hn
  | edge l m below others ihBelow ihOthers =>
    obtain ⟨hnode, hbelow, hothers⟩ := h
    rw [nodes_edge, List.mem_cons, List.mem_append] at hn
    rcases hn with rfl | hn | hn
    · exact ⟨hnode, hbelow⟩
    · exact ihBelow hbelow hn
    · exact ihOthers hothers hn

/-- Edges that are equal but for numbers lead to nodes that are. -/
theorem exists_mem_nodes_of_bare_eq {e e' : Edges} (h : e.bare = e'.bare) {n : Node}
    (hn : n ∈ e.nodes) :
    ∃ n' ∈ e'.nodes, n.mark.terminal = n'.mark.terminal ∧ n.edges.bare = n'.edges.bare := by
  induction e generalizing e' with
  | nil => cases hn
  | edge l m below others ihBelow ihOthers =>
    -- The trees agree edge by edge, so a node of the one stands at the same place in the other.
    cases e' with
    | nil => cases h
    | edge l' m' below' others' =>
      simp only [bare, edge.injEq, Mark.mk.injEq, true_and, and_true] at h
      obtain ⟨-, hterminal, hbelow, hothers⟩ := h
      simp only [nodes_edge, List.mem_cons, List.mem_append] at hn ⊢
      rcases hn with rfl | hn | hn
      · exact ⟨⟨m', below'⟩, .inl rfl, hterminal, hbelow⟩
      · obtain ⟨n', hn', hsame⟩ := ihBelow hbelow hn
        exact ⟨n', .inr (.inl hn'), hsame⟩
      · obtain ⟨n', hn', hsame⟩ := ihOthers hothers hn
        exact ⟨n', .inr (.inr hn'), hsame⟩

end Edges

namespace WordGraph

/-- A path from a node of the graph ends at one. -/
theorem mem_nodes_of_walk {g : WordGraph} {n m : Node} (hn : n ∈ g.nodes) {w : Word}
    (hwalk : n.walk w = some m) : m ∈ g.nodes := by
  induction w generalizing n with
  | nil =>
    cases hwalk
    exact hn
  | cons l w ih =>
    obtain ⟨c, hchild, hrest⟩ := Option.bind_eq_some_iff.mp hwalk
    have htarget : c ∈ n.edges.targets :=
      List.mem_map.mpr ⟨_, Edges.mem_toList_of_child? hchild, rfl⟩
    exact ih (mem_nodes_of_mem_targets hn htarget) hrest

/-- **The nodes of a sorted graph** are those that paths from the root lead to. -/
theorem mem_nodes_iff {g : WordGraph} (h : g.root.edges.Sorted) (n : Node) :
    n ∈ g.nodes ↔ ∃ w, g.walk w = some n := by
  refine ⟨fun hn => ?_, fun ⟨w, hwalk⟩ => mem_nodes_of_walk g.root_mem_nodes hwalk⟩
  rcases List.mem_cons.mp hn with rfl | hn
  · exact ⟨[], rfl⟩
  -- A path to a node goes on to the nodes that its edges lead to.
  have hstep : ∀ m, (∃ w, g.walk w = some m) → ∀ c ∈ m.edges.targets, ∃ w, g.walk w = some c := by
    rintro m ⟨w, hwalk⟩ c hc
    obtain ⟨⟨l, c⟩, hmem, rfl⟩ := List.mem_map.mp hc
    have hchild := ((Node.sorted_of_walk h hwalk).mem_toList_iff l c).mp hmem
    refine ⟨w ++ [l], ?_⟩
    rw [walk, Node.walk_append, ← walk, hwalk, Option.bind_some, Node.walk_singleton, hchild]
  exact Edges.forall_mem_nodes hstep (hstep g.root ⟨[], rfl⟩) n hn

/-- **Every number of a merged graph** is that of one of its nodes. -/
theorem exists_number_merge {g : WordGraph} (h : SharesSoundly g.nodes g.size) {k : Nat}
    (hk : k < g.merge.size) : ∃ n ∈ g.merge.nodes, n.mark.number = k := by
  obtain ⟨s, hsound, hroot, hsize, hterminal, hbare⟩ := exists_merging h
  obtain ⟨n, hn, rfl⟩ := hsound.filled k (hsize ▸ hk)
  obtain ⟨old, hold, hsame⟩ := hsound.of_tree n hn
  -- The node that was kept for one of the graph stands at the same place of the merged graph.
  have hplace : ∃ n' ∈ g.merge.nodes,
      old.mark.terminal = n'.mark.terminal ∧ old.edges.bare = n'.edges.bare := by
    rcases List.mem_cons.mp hold with rfl | hold
    · exact ⟨_, root_mem_nodes _, hterminal.symm, hbare.symm⟩
    · obtain ⟨n', hn', hsame⟩ := Edges.exists_mem_nodes_of_bare_eq hbare.symm hold
      exact ⟨n', List.mem_cons_of_mem _ hn', hsame⟩
  obtain ⟨n', hn', hsame'⟩ := hplace
  have heq := hsound.eq_of_bare_eq hn (hsound.keeps_of_mem_nodes hroot n' hn')
    (hsame.1.trans hsame'.1) (hsame.2.trans hsame'.2)
  exact ⟨n', hn', heq ▸ rfl⟩

end WordGraph

/-! ## §2 Endings -/

/-- **The endings at a node**: what is spelled from it to a node at which a word ends. -/
def Node.endings (n : Node) : Set Word := {w | ∃ m, n.walk w = some m ∧ m.mark.terminal = true}

namespace Node

theorem nil_mem_endings (n : Node) : [] ∈ n.endings ↔ n.mark.terminal = true := by
  simp [endings, walk]

theorem mem_words_iff_mem_endings {n : Node} (h : n.edges.Sorted) (w : Word) :
    w ∈ n.edges.words ↔ w ≠ [] ∧ w ∈ n.endings := by
  cases w with
  | nil => simp [Edges.nil_notMem_words]
  | cons l w => simpa [endings] using h.mem_words_iff n.mark l w

/-- **Nodes with the same endings** are equal but for numbers, if no edge leads to a dead end. -/
theorem same_of_endings_eq {n m : Node} (hn : n.edges.Sorted) (hm : m.edges.Sorted)
    (hliveN : n.edges.Live) (hliveM : m.edges.Live) (h : n.endings = m.endings) :
    n.mark.terminal = m.mark.terminal ∧ n.edges.bare = m.edges.bare := by
  refine ⟨?_, Edges.bare_eq_of_mem_words_iff hn hm hliveN hliveM fun w => ?_⟩
  · rw [Bool.eq_iff_iff, ← nil_mem_endings, ← nil_mem_endings, h]
  · rw [mem_words_iff_mem_endings hn, mem_words_iff_mem_endings hm, h]

end Node

namespace WordGraph

/-- **The sets of endings that the beginnings of words have.** -/
def endingSets (g : WordGraph) : Set (Set Word) :=
  {endings | ∃ v, (∃ w, g.contains (v ++ w) = true) ∧ endings = {w | g.contains (v ++ w) = true}}

/-- What goes on behind the beginning of a word are the endings at the node it leads to. -/
theorem contains_append_iff {g : WordGraph} (hroot : g.root.mark.terminal = false) (v w : Word) :
    g.contains (v ++ w) = true ↔ ∃ n, g.walk v = some n ∧ w ∈ n.endings := by
  have hends : g.contains (v ++ w) = true ↔
      ∃ m, g.walk (v ++ w) = some m ∧ m.mark.terminal = true := by
    cases hvw : v ++ w with
    | nil => simp [contains, walk, Node.walk, hroot]
    | cons l u => simp [contains, Option.any_eq_true]
  rw [hends]
  simp only [walk, Node.walk_append, Option.bind_eq_some_iff, Node.endings, Set.mem_ofPred_eq]
  grind

theorem IsLive.of_mem_nodes {g : WordGraph} (h : g.IsLive) {n : Node} (hn : n ∈ g.nodes) :
    n.edges.Live := by
  rcases List.mem_cons.mp hn with rfl | hn
  · exact h.edges
  · exact (h.edges.of_mem_nodes hn).2

theorem sorted_of_mem_nodes {g : WordGraph} (h : g.root.edges.Sorted) {n : Node}
    (hn : n ∈ g.nodes) : n.edges.Sorted := by
  obtain ⟨v, hwalk⟩ := (mem_nodes_iff h n).mp hn
  exact Node.sorted_of_walk h hwalk

section Nodes

variable {g : WordGraph} (hsound : g.IsSound) (hlive : g.IsLive)
include hsound hlive

/-- **From every node a word is spelled to its end**, if there are words at all. -/
theorem endings_nonempty (hwords : g.words ≠ []) {n : Node} (hn : n ∈ g.nodes) :
    n.endings.Nonempty := by
  -- No node but the root of a graph without words is a dead end.
  have hleads : n.mark.terminal = true ∨ n.edges ≠ .nil := by
    rcases List.mem_cons.mp hn with rfl | hn
    · exact .inr fun hnil => hwords (by rw [words, hnil]; rfl)
    · exact (hlive.edges.of_mem_nodes hn).1
  rcases hleads with hterminal | hedges
  · exact ⟨[], (Node.nil_mem_endings n).mpr hterminal⟩
  · obtain ⟨w, hw⟩ := (hlive.of_mem_nodes hn).exists_word hedges
    have hsorted := sorted_of_mem_nodes hsound.sorted hn
    exact ⟨w, ((Node.mem_words_iff_mem_endings hsorted w).mp hw).2⟩

/-- **The sets of endings are those at the nodes.** -/
theorem image_endings (hwords : g.words ≠ []) : Node.endings '' {n | n ∈ g.nodes} = g.endingSets := by
  -- The words that go on from a path are the endings of its node.
  have hset {v : Word} {n : Node} (hwalk : g.walk v = some n) :
      {w | g.contains (v ++ w) = true} = n.endings := by
    ext w
    simp [contains_append_iff hlive.root, hwalk]
  ext endings
  constructor
  · rintro ⟨n, hn, rfl⟩
    obtain ⟨v, hwalk⟩ := (mem_nodes_iff hsound.sorted n).mp hn
    obtain ⟨w, hw⟩ := endings_nonempty hsound hlive hwords hn
    exact ⟨v, ⟨w, (contains_append_iff hlive.root v w).mpr ⟨n, hwalk, hw⟩⟩, (hset hwalk).symm⟩
  · rintro ⟨v, ⟨w, hw⟩, rfl⟩
    obtain ⟨n, hwalk, -⟩ := (contains_append_iff hlive.root v w).mp hw
    exact ⟨n, (mem_nodes_iff hsound.sorted n).mpr ⟨v, hwalk⟩, (hset hwalk).symm⟩

/-- **Endings tell the nodes of a minimal graph.** -/
theorem injOn_endings (hminimal : g.IsMinimal) : Set.InjOn Node.endings {n | n ∈ g.nodes} := by
  intro n hn m hm heq
  obtain ⟨hterminal, hbare⟩ := Node.same_of_endings_eq (sorted_of_mem_nodes hsound.sorted hn)
    (sorted_of_mem_nodes hsound.sorted hm) (hlive.of_mem_nodes hn) (hlive.of_mem_nodes hm) heq
  exact hminimal n hn m hm hterminal hbare

/-- **A minimal graph has as many nodes as there are sets of endings**, if all its numbers are on
nodes. -/
theorem size_eq_ncard (hminimal : g.IsMinimal)
    (hfilled : ∀ k < g.size, ∃ n ∈ g.nodes, n.mark.number = k) (hwords : g.words ≠ []) :
    g.size = g.endingSets.ncard := by
  have hnumbers : (fun n : Node => n.mark.number) '' {n | n ∈ g.nodes} = Set.Iio g.size := by
    ext k
    constructor
    · rintro ⟨n, hn, rfl⟩
      exact hsound.sharesSoundly.bounded n hn
    · intro hk
      obtain ⟨n, hn, hnumber⟩ := hfilled k hk
      exact ⟨n, hn, hnumber⟩
  have hinjective : Set.InjOn (fun n : Node => n.mark.number) {n | n ∈ g.nodes} :=
    fun n hn m hm heq => hsound.sharesSoundly.eq_of_number_eq hn hm heq
  -- Both the numbers and the endings tell the nodes, so there are as many of the one as of the other.
  calc g.size = (Set.Iio g.size).ncard := (Set.ncard_Iio_nat _).symm
    _ = {n | n ∈ g.nodes}.ncard := by rw [← hnumbers, hinjective.ncard_image]
    _ = g.endingSets.ncard := by
      rw [← image_endings hsound hlive hwords,
        (injOn_endings hsound hlive hminimal).ncard_image]

end Nodes

/-! ## §3 After a merge -/

/-- A graph without words is merged into its root. -/
theorem size_merge_of_words_eq_nil {g : WordGraph} (hlive : g.IsLive) (h : g.words = []) :
    g.merge.size = 1 := by
  have hnil : g.root.edges = .nil := by
    by_contra hne
    obtain ⟨w, hw⟩ := hlive.edges.exists_word hne
    rw [← words, h] at hw
    cases hw
  simp [merge, hnil, Edges.merge, Merging.keep, Merging.start]

/-- **A merged graph is the smallest one for its words.** After any insertions and merges, and one
merge more, paths from the root lead to every number below the size, and to no other. Two nodes that
paths lead to have the same endings only if they are one node. And there are as many nodes as there
are different sets of endings for the beginnings of words; without words, there is only the root. -/
theorem size_merge_run (steps : List GraphStep) :
    let g := (empty.run steps).merge
    (∀ k, k < g.size ↔ ∃ w n, g.walk w = some n ∧ n.mark.number = k) ∧
    (∀ v w n m, g.walk v = some n → g.walk w = some m →
      (n.endings = m.endings ↔ n.mark.number = m.mark.number)) ∧
    g.size = if g.words = [] then 1 else g.endingSets.ncard := by
  intro g
  have hbefore := isSound_empty.run steps
  have hsound : g.IsSound := hbefore.merge
  have hlive : g.IsLive := (isLive_empty.run isSound_empty steps).perform hbefore .merge
  have hminimal : g.IsMinimal := isMinimal_merge hbefore.sharesSoundly
  -- No number is left out, so the nodes are counted by their numbers.
  have hfilled : ∀ k < g.size, ∃ n ∈ g.nodes, n.mark.number = k :=
    fun k hk => exists_number_merge hbefore.sharesSoundly hk
  refine ⟨fun k => ⟨fun hk => ?_, ?_⟩, fun v w n m hv hw => ⟨fun heq => ?_, fun heq => ?_⟩, ?_⟩
  · obtain ⟨n, hn, hnumber⟩ := hfilled k hk
    obtain ⟨w, hwalk⟩ := (mem_nodes_iff hsound.sorted n).mp hn
    exact ⟨w, n, hwalk, hnumber⟩
  · rintro ⟨w, n, hwalk, rfl⟩
    exact hsound.sharesSoundly.bounded n ((mem_nodes_iff hsound.sorted n).mpr ⟨w, hwalk⟩)
  · have hn := (mem_nodes_iff hsound.sorted n).mpr ⟨v, hv⟩
    have hm := (mem_nodes_iff hsound.sorted m).mpr ⟨w, hw⟩
    exact congrArg (·.mark.number) (injOn_endings hsound hlive hminimal hn hm heq)
  · have hn := (mem_nodes_iff hsound.sorted n).mpr ⟨v, hv⟩
    have hm := (mem_nodes_iff hsound.sorted m).mpr ⟨w, hw⟩
    rw [hsound.sharesSoundly.eq_of_number_eq hn hm heq]
  · split
    · next hnone =>
      refine size_merge_of_words_eq_nil (isLive_empty.run isSound_empty steps) ?_
      rw [← hnone]
      exact (words_merge hbefore.sharesSoundly).symm
    · next hwords => exact size_eq_ncard hsound hlive hminimal hfilled hwords

end WordGraph

end WordStudy
