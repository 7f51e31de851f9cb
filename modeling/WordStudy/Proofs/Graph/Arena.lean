import WordStudy.Graph.Arena
import WordStudy.Proofs.Graph.Minimal

/-!
# Tables that hold a graph

A table **holds** a graph if each node of the graph stands at the place of its number. As long as 32
bits tell the places apart, what is spelled in the table is then what is spelled in the graph, and a
path from the root has an end, for no place is on it twice.
-/

namespace WordStudy

/-! ## §1 Nodes as they stand in a table -/

/-- As many places as 32 bits tell apart. -/
def maxCells : Nat := 0x100000000

/-- The place of a node in a table. -/
def Node.place (n : Node) : UInt32 := UInt32.ofNat n.mark.number

/-- The edges as links of a table. -/
def Edges.links (e : Edges) : List Link := e.toList.map fun (l, n) => ⟨l, n.place⟩

/-- The node as it stands in a table. -/
def Node.cell (n : Node) : NodeCell := ⟨n.edges.links, n.mark.terminal, n.mark.frozen⟩

@[simp] theorem Edges.links_nil : Edges.nil.links = [] := rfl

@[simp] theorem Edges.links_edge (l : UInt8) (m : Mark) (below others : Edges) :
    (Edges.edge l m below others).links = ⟨l, Node.place ⟨m, below⟩⟩ :: others.links := rfl

theorem Node.toNat_place {n : Node} (h : n.mark.number < maxCells) :
    n.place.toNat = n.mark.number := UInt32.toNat_ofNat_of_lt' h

/-- The link with a letter leads where the edge with the letter does. -/
theorem Node.target?_cell (n : Node) (l : UInt8) :
    n.cell.target? l = (n.edges.child? l).map Node.place := by
  obtain ⟨m, e⟩ := n
  simp only [cell, NodeCell.target?]
  induction e with
  | nil => rfl
  | edge k m below others _ ihOthers =>
    rw [Edges.links_edge, List.find?_cons, Edges.child?]
    by_cases h : k = l
    · simp [h]
    · simpa [h] using ihOthers

/-- **The nodes stand at the places of their numbers.** -/
def HoldsNodes (cells : Array NodeCell) (nodes : List Node) : Prop :=
  ∀ n ∈ nodes, cells[n.mark.number]? = some n.cell

/-- **The table holds the graph**, and 32 bits tell its places apart. -/
structure Arena.Holds (a : Arena) (g : WordGraph) : Prop where
  nodes : HoldsNodes a.cells g.nodes
  root : a.root = g.root.place
  size : a.cells.size = g.size
  wordCount : a.wordCount = g.wordCount
  small : g.size ≤ maxCells

/-! ## §2 The height of a graph -/

namespace Edges

theorem height_lt_of_mem_nodes {e : Edges} {n : Node} (h : n ∈ e.nodes) :
    n.edges.height < e.height := by
  induction e with
  | nil => cases h
  | edge l m below others ihBelow ihOthers =>
    -- The node is the first edge's own, it is below this one, or it is of another edge.
    rw [nodes_edge, List.mem_cons, List.mem_append] at h
    rw [height]
    rcases h with rfl | h | h
    · exact Nat.lt_of_lt_of_le (Nat.lt_succ_self _) (Nat.le_max_left _ _)
    · exact Nat.lt_of_lt_of_le (Nat.lt_succ_of_lt (ihBelow h)) (Nat.le_max_left _ _)
    · exact Nat.lt_of_lt_of_le (ihOthers h) (Nat.le_max_right _ _)

/-- Along the longest path, there are nodes of every lesser height. -/
theorem exists_mem_nodes_of_lt_height {e : Edges} {k : Nat} (h : k < e.height) :
    ∃ n ∈ e.nodes, n.edges.height = k := by
  induction e generalizing k with
  | nil => cases h
  | edge l m below others ihBelow ihOthers =>
    -- The greatest height is that of the first edge or of the others, so all below it are taken.
    have hbranch : k = below.height ∨ k < below.height ∨ k < others.height := by
      rw [height] at h
      omega
    rcases hbranch with rfl | hbelow | hothers
    · exact ⟨⟨m, below⟩, by simp, rfl⟩
    · obtain ⟨n, hn, hheight⟩ := ihBelow hbelow
      exact ⟨n, by simp [hn], hheight⟩
    · obtain ⟨n, hn, hheight⟩ := ihOthers hothers
      exact ⟨n, by simp [hn], hheight⟩

end Edges

/-- A node has a number of its own, which no node below it has. -/
theorem SharesSoundly.number_ne {n : Node} {size : Nat}
    (h : SharesSoundly (n :: n.edges.nodes) size) {c : Node} (hc : c ∈ n.edges.nodes) :
    c.mark.number ≠ n.mark.number := by
  intro heq
  have hsame := h.eq_of_number_eq (List.mem_cons_of_mem _ hc) (List.mem_cons_self ..) heq
  have hlower := Edges.height_lt_of_mem_nodes hc
  rw [hsame] at hlower
  exact Nat.lt_irrefl _ hlower

namespace WordGraph

/-- **A graph has more nodes than its paths are long.** -/
theorem height_lt_size {g : WordGraph} (h : SharesSoundly g.nodes g.size) :
    g.root.edges.height < g.size := by
  have hexists : ∀ k : Fin (g.root.edges.height + 1), ∃ n ∈ g.nodes, n.edges.height = k := by
    intro ⟨k, hk⟩
    rcases Nat.lt_succ_iff_lt_or_eq.mp hk with hlt | rfl
    · obtain ⟨n, hn, hheight⟩ := Edges.exists_mem_nodes_of_lt_height hlt
      exact ⟨n, List.mem_cons_of_mem _ hn, hheight⟩
    · exact ⟨g.root, g.root_mem_nodes, rfl⟩
  choose node hmem hheight using hexists
  -- Nodes of different heights have different numbers, all of them below the size.
  let number (k : Fin (g.root.edges.height + 1)) : Fin g.size :=
    ⟨(node k).mark.number, h.bounded _ (hmem k)⟩
  have hinjective : Function.Injective number := by
    intro k k' heq
    have hsame := h.eq_of_number_eq (hmem k) (hmem k') (Fin.mk.inj heq)
    rw [Fin.ext_iff, ← hheight k, ← hheight k', hsame]
  have hcard := Fintype.card_le_of_injective number hinjective
  rwa [Fintype.card_fin, Fintype.card_fin] at hcard

end WordGraph

/-! ## §3 Looking up words -/

namespace Arena

variable {a : Arena} {nodes : List Node}

theorem cell_place (h : HoldsNodes a.cells nodes) {n : Node} (hn : n ∈ nodes)
    (hsmall : n.mark.number < maxCells) : a.cell n.place = n.cell := by
  rw [cell, n.toNat_place hsmall, Array.getD_eq_getD_getElem?, h n hn, Option.getD_some]

/-- The words along links are those along the edges. -/
theorem wordsAlong_links (h : HoldsNodes a.cells nodes)
    (hsmall : ∀ n ∈ nodes, n.mark.number < maxCells) {e : Edges} (he : ∀ n ∈ e.nodes, n ∈ nodes)
    {depth : Nat} (hdepth : e.height ≤ depth) :
    a.wordsAlong (a.wordsBelow depth) e.links = some e.words := by
  induction e generalizing depth with
  | nil => rfl
  | edge l m below others ihBelow ihOthers =>
    have hnode : (⟨m, below⟩ : Node) ∈ nodes := he _ (by simp)
    have hcell := cell_place h hnode (hsmall _ hnode)
    obtain ⟨hlower, hrest⟩ : below.height + 1 ≤ depth ∧ others.height ≤ depth :=
      Nat.max_le.mp hdepth
    have hothers := ihOthers (fun n hn => he n (by simp [hn])) hrest
    -- A node below takes one place of the depth, the other edges none.
    cases depth with
    | zero => exact absurd hlower (Nat.not_succ_le_zero _)
    | succ depth =>
      have hbelow : a.wordsBelow (depth + 1) (Node.place ⟨m, below⟩) = some below.words := by
        rw [wordsBelow, hcell]
        exact ihBelow (fun n hn => he n (by simp [hn])) (Nat.le_of_succ_le_succ hlower)
      simp [wordsAlong, hbelow, hothers, hcell, Edges.words, Node.cell]

namespace Holds

variable {g : WordGraph}

theorem number_lt (h : a.Holds g) (hshares : SharesSoundly g.nodes g.size) {n : Node}
    (hn : n ∈ g.nodes) : n.mark.number < maxCells :=
  Nat.lt_of_lt_of_le (hshares.bounded n hn) h.small

theorem cell_place (h : a.Holds g) (hshares : SharesSoundly g.nodes g.size) {n : Node}
    (hn : n ∈ g.nodes) : a.cell n.place = n.cell :=
  Arena.cell_place h.nodes hn (h.number_lt hshares hn)

/-- **A path of the table** leads where it leads in the graph. -/
theorem walkFrom_place (h : a.Holds g) (hshares : SharesSoundly g.nodes g.size) {n : Node}
    (hn : n ∈ g.nodes) (w : Word) : a.walkFrom n.place w = (n.walk w).map Node.place := by
  induction w generalizing n with
  | nil => rfl
  | cons l w ih =>
    rw [walkFrom, List.foldlM_cons, h.cell_place hshares hn, n.target?_cell, Node.walk]
    cases hchild : n.edges.child? l with
    | none => rfl
    | some c =>
      -- A child is a node of the graph again, so its cell is known as well.
      have htarget : c ∈ n.edges.targets :=
        List.mem_map.mpr ⟨_, Edges.mem_toList_of_child? hchild, rfl⟩
      exact ih (WordGraph.mem_nodes_of_mem_targets hn htarget)

theorem walk_eq (h : a.Holds g) (hshares : SharesSoundly g.nodes g.size) (w : Word) :
    a.walk w = (g.walk w).map Node.place := by
  rw [walk, h.root, h.walkFrom_place hshares g.root_mem_nodes, WordGraph.walk]

/-- **The table has the words of the graph.** -/
theorem contains_eq (h : a.Holds g) (hshares : SharesSoundly g.nodes g.size) (w : Word) :
    a.contains w = g.contains w := by
  rw [contains, WordGraph.contains, h.walk_eq hshares]
  cases hwalk : g.walk w with
  | none => rfl
  | some n =>
    have hn := WordGraph.mem_nodes_of_walk g.root_mem_nodes hwalk
    simp [h.cell_place hshares hn, Node.cell]

/-- **The words of the table** are listed, and they are those of the graph. -/
theorem words_eq (h : a.Holds g) (hshares : SharesSoundly g.nodes g.size) :
    a.words = some g.words := by
  -- The depth given to the walk is the number of cells, which no path exceeds.
  have hheight := WordGraph.height_lt_size hshares
  obtain ⟨depth, hdepth⟩ : ∃ depth, a.cells.size = depth + 1 :=
    ⟨g.size - 1, by rw [h.size]; omega⟩
  rw [words, hdepth, wordsBelow, h.root, h.cell_place hshares g.root_mem_nodes]
  refine wordsAlong_links h.nodes (fun n hn => h.number_lt hshares hn)
    (fun n hn => List.mem_cons_of_mem _ hn) ?_
  rw [h.size] at hdepth
  omega

end Holds

end Arena

end WordStudy
