import WordStudy.Graph.Basic

/-!
# Merging equal nodes

Nodes from which the same endings can be spelled are merged into one. The edges are gone
through from the leaves to the root: a node is known by its **signature**, that is, whether a
word ends there and to which merged nodes its letters lead. A node whose signature was seen
becomes the node seen; any other gets the next number. All nodes are frozen then, and nodes
that cannot be reached are gone.
-/

namespace WordStudy

/-- What was found so far while nodes are merged. -/
structure Merging where
  /-- The merged node of each node gone through, by its old number. -/
  done : Std.TreeMap Nat Node
  /-- The merged nodes by their signatures. -/
  kept : Std.TreeMap (List Nat) Node
  /-- The number of merged nodes. -/
  size : Nat

namespace Merging

def start : Merging := ⟨∅, ∅, 0⟩

/-- The signature of a node whose edges lead to merged nodes. -/
def signature (terminal : Bool) (edges : Edges) : List Nat :=
  terminal.toNat :: edges.toList.flatMap fun (l, node) => [l.toNat, node.mark.number]

/-- The merged node for a node with mark `m` and merged edges. -/
def keep (s : Merging) (m : Mark) (edges : Edges) : Node × Merging :=
  let sign := signature m.terminal edges
  match s.kept[sign]? with
  | some node => (node, { s with done := s.done.insert m.number node })
  | none =>
    let node : Node := ⟨⟨s.size, m.terminal, true⟩, edges⟩
    (node, ⟨s.done.insert m.number node, s.kept.insert sign node, s.size + 1⟩)

end Merging

/-- The edges with every node merged. A node with a number met before is not gone through
again. -/
def Edges.merge : Edges → Merging → Edges × Merging
  | .nil, s => (.nil, s)
  | .edge l m below others, s =>
    let (node, s) :=
      -- A node that was merged on another path is the same one here.
      match s.done[m.number]? with
      | some node => (node, s)
      | none =>
        let (below, s) := below.merge s
        s.keep m below
    let (others, s) := others.merge s
    (.edge l node.mark node.edges others, s)

/-- **The graph with all equal nodes merged.** -/
def WordGraph.merge (g : WordGraph) : WordGraph :=
  let (edges, s) := g.root.edges.merge Merging.start
  let (root, s) := s.keep g.root.mark edges
  { root, size := s.size, wordCount := g.wordCount }

end WordStudy
