import Mathlib.Algebra.BigOperators.Group.Finset.Basic
import Mathlib.Algebra.Order.BigOperators.Group.Finset
import WordStudy.Proofs.Graph.Sharing
import WordStudy.Proofs.Graph.Unfolding

/-!
# The layout of an image

Runs are laid out by going through a queue of waiting nodes. The nodes laid out so far have one run
after the other, and a node that one of them leads to is laid out, waits, or has no edges. So in the
end all nodes with edges are laid out once, the entries are as many as the edges of the nodes and
one more, and the table that is written **unfolds to the graph**.
-/

namespace WordStudy

open Text

/-! ## §1 The edges of a graph -/

/-- The number of edges of a node. -/
def Node.degree (n : Node) : Nat := n.edges.letters.length

theorem Node.degree_pos {n : Node} (h : n.edges ≠ .nil) : 0 < n.degree := by
  cases hn : n.edges with
  | nil => exact absurd hn h
  | edge l m below others => simp [degree, hn]

namespace Edges

theorem mem_nodes_of_mem_targets {e : Edges} {c : Node} (hc : c ∈ e.targets) : c ∈ e.nodes := by
  induction e with
  | nil => simp at hc
  | edge l m below others _ ihOthers =>
    rcases List.mem_cons.mp hc with rfl | hc
    · simp
    · simp [ihOthers hc]

/-- Nodes below nodes are nodes. -/
theorem mem_nodes_trans {e : Edges} {n c : Node} (hn : n ∈ e.nodes) (hc : c ∈ n.edges.nodes) :
    c ∈ e.nodes := by
  induction e with
  | nil => simp at hn
  | edge l m below others ihBelow ihOthers =>
    simp only [nodes_edge, List.mem_cons, List.mem_append] at hn ⊢
    rcases hn with rfl | hn | hn
    · exact .inr (.inl hc)
    · exact .inr (.inl (ihBelow hn))
    · exact .inr (.inr (ihOthers hn))

end Edges

namespace WordGraph

theorem root_mem_nodes (g : WordGraph) : g.root ∈ g.nodes := List.mem_cons_self ..

theorem mem_nodes_of_mem_targets {g : WordGraph} {n c : Node} (hn : n ∈ g.nodes)
    (hc : c ∈ n.edges.targets) : c ∈ g.nodes := by
  refine List.mem_cons_of_mem _ ?_
  rcases List.mem_cons.mp hn with rfl | hn
  · exact Edges.mem_nodes_of_mem_targets hc
  · exact Edges.mem_nodes_trans hn (Edges.mem_nodes_of_mem_targets hc)

/-- **The number of edges of a graph**, those of a shared node counted once. -/
def edgeTotal (g : WordGraph) : Nat :=
  ∑ entry ∈ (g.nodes.map fun n => (n.mark.number, n.degree)).toFinset, entry.2

end WordGraph

namespace Image

/-! ## §2 What holds while nodes are laid out -/

/-- The number of entries for the runs of nodes. -/
def room : List Node → Nat
  | [] => 0
  | n :: nodes => n.degree + room nodes

@[simp] theorem room_nil : room [] = 0 := rfl

@[simp] theorem room_cons (n : Node) (nodes : List Node) :
    room (n :: nodes) = n.degree + room nodes := rfl

@[simp] theorem room_append (xs ys : List Node) : room (xs ++ ys) = room xs + room ys := by
  induction xs with
  | nil => simp
  | cons n xs ih => simp [ih, Nat.add_assoc]

namespace Layout

/-- **The layout of nodes**: their runs lie one after the other, the first one first. -/
structure Lists (layout : Layout) (placed : List Node) : Prop where
  order_eq : layout.order.reverse = placed.map (·.edges)
  next_eq : layout.next = 1 + room placed
  start_eq : ∀ before n after, placed = before ++ n :: after →
    layout.runs[n.mark.number]? = some (1 + room before)
  placed_of_run : ∀ k run, layout.runs[k]? = some run → ∃ n ∈ placed, n.mark.number = k
  edges_ne : ∀ n ∈ placed, n.edges ≠ .nil
  nodup : (placed.map (·.mark.number)).Nodup

theorem lists_start : start.Lists [] := by
  constructor <;> simp [start]

/-- **One more node** that was not laid out before. -/
theorem Lists.add {layout : Layout} {placed : List Node} (h : layout.Lists placed) {node : Node}
    (hedges : node.edges ≠ .nil) (hnew : layout.runs[node.mark.number]? = none) :
    (layout.add node).Lists (placed ++ [node]) := by
  have hfresh : ∀ n ∈ placed, n.mark.number ≠ node.mark.number := by
    intro n hn heq
    obtain ⟨before, after, hsplit⟩ := List.append_of_mem hn
    have hrun := h.start_eq before n after hsplit
    rw [heq, hnew] at hrun
    cases hrun
  refine ⟨?_, ?_, ?_, ?_, ?_, ?_⟩
  · simp [Layout.add, h.order_eq]
  · simp only [Layout.add, h.next_eq, room_append, room_cons, room_nil, Node.degree]
    omega
  · intro before n after hsplit
    simp only [Layout.add, Std.TreeMap.getElem?_insert, Std.compare_eq_iff_eq]
    -- The node is the last one, or it was laid out before.
    rcases List.eq_nil_or_concat' after with rfl | ⟨after, last, rfl⟩
    · obtain ⟨rfl, hn⟩ := List.append_inj' hsplit rfl
      cases hn
      rw [if_pos rfl, h.next_eq]
    · rw [← List.cons_append, ← List.append_assoc] at hsplit
      obtain ⟨rfl, -⟩ := List.append_inj' hsplit rfl
      rw [if_neg (hfresh n (by simp)).symm]
      exact h.start_eq before n after rfl
  · intro k run hrun
    simp only [Layout.add, Std.TreeMap.getElem?_insert, Std.compare_eq_iff_eq] at hrun
    split at hrun
    · next heq => exact ⟨node, by simp, heq⟩
    · obtain ⟨n, hn, hk⟩ := h.placed_of_run k run hrun
      exact ⟨n, List.mem_append_left _ hn, hk⟩
  · intro n hn
    rcases List.mem_append.mp hn with hn | hn
    · exact h.edges_ne n hn
    · exact List.mem_singleton.mp hn ▸ hedges
  · rw [List.map_append, List.map_singleton, List.nodup_append]
    refine ⟨h.nodup, List.nodup_singleton _, ?_⟩
    intro k hk k' hk'
    obtain ⟨n, hn, rfl⟩ := List.mem_map.mp hk
    exact List.mem_singleton.mp hk' ▸ hfresh n hn

/-- The run of a node that was laid out. -/
theorem Lists.runFor_eq {layout : Layout} {before after : List Node} {n : Node}
    (h : layout.Lists (before ++ n :: after)) : layout.runFor n = 1 + room before := by
  simp [runFor, h.start_eq before n after rfl]

/-- Of two nodes laid out, the later one has the greater run. -/
theorem Lists.runFor_lt_runFor {layout : Layout} {before between after : List Node} {n m : Node}
    (h : layout.Lists (before ++ n :: (between ++ m :: after))) :
    layout.runFor n < layout.runFor m := by
  have hn := h.runFor_eq
  have hdegree := Node.degree_pos (h.edges_ne n (by simp))
  rw [← List.cons_append, ← List.append_assoc] at h
  rw [hn, h.runFor_eq, room_append, room_cons]
  omega

end Layout

/-- **What holds while the nodes of a graph are laid out** and others wait. The root, and every node
that one laid out leads to, has no edges, is laid out or waits. -/
structure LaysOut (g : WordGraph) (layout : Layout) (placed waiting : List Node) : Prop where
  lists : layout.Lists placed
  placed_mem : ∀ n ∈ placed, n ∈ g.nodes
  waiting_mem : ∀ n ∈ waiting, n ∈ g.nodes
  root : g.root.edges = .nil ∨ g.root ∈ placed ∨ g.root ∈ waiting
  targets : ∀ n ∈ placed, ∀ c ∈ n.edges.targets, c.edges = .nil ∨ c ∈ placed ∨ c ∈ waiting

namespace LaysOut

variable {g : WordGraph} {layout : Layout} {placed waiting waiting' : List Node}

theorem start (g : WordGraph) : LaysOut g Layout.start [] [g.root] :=
  ⟨Layout.lists_start, by simp, by simp [WordGraph.nodes], by simp, by simp⟩

/-- The order of the waiting nodes does not matter, and those without edges or laid out need not
wait. -/
theorem of_waiting (h : LaysOut g layout placed waiting) (hsub : ∀ n ∈ waiting', n ∈ waiting)
    (hrest : ∀ n ∈ waiting, n.edges = .nil ∨ n ∈ placed ∨ n ∈ waiting') :
    -- A list of waiting nodes matters only for nodes that have edges and are not placed yet.
    LaysOut g layout placed waiting' where
  lists := h.lists
  placed_mem := h.placed_mem
  waiting_mem n hn := h.waiting_mem n (hsub n hn)
  root := by
    rcases h.root with hroot | hroot | hroot
    · exact .inl hroot
    · exact .inr (.inl hroot)
    · exact hrest _ hroot
  targets n hn c hc := by
    rcases h.targets n hn c hc with hedges | hplaced | hwaiting
    · exact .inl hedges
    · exact .inr (.inl hplaced)
    · exact hrest _ hwaiting

/-- **A waiting node is laid out**, and those that it leads to wait. -/
theorem add {node : Node} (h : LaysOut g layout placed (node :: waiting))
    (hedges : node.edges ≠ .nil) (hnew : layout.runs[node.mark.number]? = none) :
    LaysOut g (layout.add node) (placed ++ [node]) (waiting ++ node.edges.targets) where
  lists := h.lists.add hedges hnew
  placed_mem n hn := by
    rcases List.mem_append.mp hn with hn | hn
    · exact h.placed_mem n hn
    · exact h.waiting_mem n (List.mem_singleton.mp hn ▸ List.mem_cons_self ..)
  waiting_mem n hn := by
    rcases List.mem_append.mp hn with hn | hn
    · exact h.waiting_mem n (List.mem_cons_of_mem _ hn)
    · exact WordGraph.mem_nodes_of_mem_targets (h.waiting_mem node (List.mem_cons_self ..)) hn
  -- The root and the targets were waiting or placed; the node moves from the one to the other.
  root := by
    have hroot := h.root
    simp only [List.mem_cons, List.mem_append, List.not_mem_nil, or_false] at hroot ⊢
    tauto
  targets n hn c hc := by
    rcases List.mem_append.mp hn with hn | hn
    · have htarget := h.targets n hn c hc
      simp only [List.mem_cons, List.mem_append, List.not_mem_nil, or_false] at htarget ⊢
      tauto
    · rw [List.mem_singleton.mp hn] at hc
      exact .inr (.inr (List.mem_append_right _ hc))

/-- A waiting node whose number has a run is laid out. -/
theorem mem_placed (h : LaysOut g layout placed waiting) (hshares : SharesSoundly g.nodes g.size)
    {n : Node} (hn : n ∈ g.nodes) (hrun : layout.runs.contains n.mark.number = true) :
    n ∈ placed := by
  rw [Std.TreeMap.contains_eq_isSome_getElem?, Option.isSome_iff_exists] at hrun
  obtain ⟨run, hrun⟩ := hrun
  obtain ⟨m, hm, hnumber⟩ := h.lists.placed_of_run _ _ hrun
  rwa [← hshares.eq_of_number_eq (h.placed_mem m hm) hn hnumber]

end LaysOut

theorem runs_eq_none {layout : Layout} {k : Nat} (h : ¬ layout.runs.contains k = true) :
    layout.runs[k]? = none := by
  rw [Std.TreeMap.contains_eq_isSome_getElem?, Bool.not_eq_true, Option.isSome_eq_false_iff] at h
  exact Option.isNone_iff_eq_none.mp h

/-- **Laying out goes on** until no node waits or the entries do not fit. -/
theorem layOut_spec {g : WordGraph} (hshares : SharesSoundly g.nodes g.size)
    {front back placed : List Node} {layout : Layout}
    (h : LaysOut g layout placed (front ++ back)) (hfits : layout.next ≤ maxEntries) :
    ∃ layout' placed' waiting, LaysOut g layout' placed' waiting ∧
      ((layOut front back layout = .ok layout' ∧ waiting = [] ∧ layout'.next ≤ maxEntries) ∨
        (layOut front back layout = .error .tooManyEdges ∧ maxEntries < layout'.next)) := by
  -- Each case of the queue: nothing waits, the second list takes over, or the node at the front has
  -- no edges, is placed already, does not fit, or is placed.
  fun_induction layOut front back layout generalizing placed with
  | case1 layout => exact ⟨layout, placed, [], h, .inl ⟨rfl, rfl, hfits⟩⟩
  | case2 node back layout ih => exact ih (h.of_waiting (by simp; tauto) (by simp; tauto)) hfits
  | case3 m front back layout ih =>
    refine ih (h.of_waiting (by simp; tauto) ?_) hfits
    intro n hn
    rcases List.mem_cons.mp hn with rfl | hn
    · exact .inl rfl
    · exact .inr (.inr hn)
  | case4 m l k below others front back layout hlaid ih =>
    refine ih (h.of_waiting (by simp; tauto) ?_) hfits
    intro n hn
    rcases List.mem_cons.mp hn with rfl | hn
    -- A node of the same number is the same node, so this one is placed already.
    · exact .inr (.inl (h.mem_placed hshares (h.waiting_mem _ (by simp)) hlaid))
    · exact .inr (.inr hn)
  | case5 m l k below others front back layout hlaid edges layout' =>
    rename_i hfull
    exact ⟨layout', _, _, LaysOut.add h (by simp) (runs_eq_none hlaid), .inr ⟨rfl, hfull⟩⟩
  | case6 m l k below others front back layout hlaid edges layout' hroom =>
    rename_i ih
    have hadd := LaysOut.add h (by simp) (runs_eq_none hlaid)
    refine ih (hadd.of_waiting ?_ ?_) (Nat.not_lt.mp hroom)
    · simp [edges]
      tauto
    · simp [edges]
      tauto

/-! ## §3 What is laid out -/

/-- **The layout of a graph**: the nodes with edges are laid out, and their entries fit. -/
structure IsLayout (g : WordGraph) (layout : Layout) (placed : List Node) : Prop where
  lists : layout.Lists placed
  mem_iff : ∀ n, n ∈ placed ↔ n ∈ g.nodes ∧ n.edges ≠ .nil
  fits : layout.next ≤ maxEntries

/-- **All nodes with edges are laid out** if no node waits. -/
theorem LaysOut.mem_iff {g : WordGraph} {layout : Layout} {placed : List Node}
    (h : LaysOut g layout placed []) (n : Node) : n ∈ placed ↔ n ∈ g.nodes ∧ n.edges ≠ .nil := by
  have hroot : g.root.edges = .nil ∨ g.root ∈ placed := by simpa using h.root
  -- When nothing waits, the placed nodes are closed under edges, so they are all that have edges.
  have hclosed : ∀ n : Node, n.edges = .nil ∨ n ∈ placed →
      ∀ c ∈ n.edges.targets, c.edges = .nil ∨ c ∈ placed := by
    rintro n (hnil | hn) c hc
    · simp [hnil] at hc
    · simpa using h.targets n hn c hc
  have hall : ∀ n ∈ g.nodes, n.edges = .nil ∨ n ∈ placed := by
    intro n hn
    rcases List.mem_cons.mp hn with rfl | hn
    · exact hroot
    · exact Edges.forall_mem_nodes hclosed (hclosed _ hroot) n hn
  exact ⟨fun hn => ⟨h.placed_mem n hn, h.lists.edges_ne n hn⟩,
    fun ⟨hn, hedges⟩ => (hall n hn).resolve_left hedges⟩

section Room

variable {g : WordGraph} {placed : List Node} (hnodup : (placed.map (·.mark.number)).Nodup)
  (hmem : ∀ n ∈ placed, n ∈ g.nodes)

include hnodup in
theorem room_eq_sum :
    room placed = ∑ entry ∈ (placed.map fun n => (n.mark.number, n.degree)).toFinset, entry.2 := by
  have hpairs : (placed.map fun n => (n.mark.number, n.degree)).Nodup :=
    List.Nodup.of_map (·.1) (by simpa [Function.comp_def] using hnodup)
  rw [List.sum_toFinset _ hpairs, List.map_map]
  clear hpairs hnodup
  induction placed with
  | nil => rfl
  | cons n placed ih => rw [room_cons, ih, List.map_cons, List.sum_cons, Function.comp_apply]

include hmem in
theorem pairs_subset : (placed.map fun n => (n.mark.number, n.degree)).toFinset ⊆
    (g.nodes.map fun n => (n.mark.number, n.degree)).toFinset := by
  intro entry hentry
  rw [List.mem_toFinset, List.mem_map] at hentry ⊢
  obtain ⟨n, hn, rfl⟩ := hentry
  exact ⟨n, hmem n hn, rfl⟩

include hnodup hmem in
/-- Nodes that are laid out once have no more edges than the graph. -/
theorem room_le_edgeTotal : room placed ≤ g.edgeTotal := by
  rw [room_eq_sum hnodup]
  exact Finset.sum_le_sum_of_subset (pairs_subset hmem)

include hnodup hmem in
/-- **All nodes with edges** have all edges of the graph. -/
theorem room_eq_edgeTotal (hall : ∀ n ∈ g.nodes, n.edges ≠ .nil → n ∈ placed) :
    room placed = g.edgeTotal := by
  rw [room_eq_sum hnodup]
  refine Finset.sum_subset (pairs_subset hmem) ?_
  intro entry hentry hnot
  obtain ⟨n, hn, rfl⟩ := List.mem_map.mp (List.mem_toFinset.mp hentry)
  -- A node that is not laid out has no edges.
  have hedges : n.edges = .nil := by
    by_contra hne
    exact hnot (List.mem_toFinset.mpr (List.mem_map.mpr ⟨n, hall n hn hne, rfl⟩))
  simp [Node.degree, hedges]

end Room

/-- **A graph is laid out just if its edges fit** behind entry 0. -/
theorem layOut_root {g : WordGraph} (hshares : SharesSoundly g.nodes g.size) :
    (∃ layout placed, layOut [g.root] [] Layout.start = .ok layout ∧ IsLayout g layout placed ∧
        1 + g.edgeTotal ≤ maxEntries) ∨
      (layOut [g.root] [] Layout.start = .error .tooManyEdges ∧ maxEntries < 1 + g.edgeTotal) := by
  have hstart : LaysOut g Layout.start [] ([g.root] ++ []) := LaysOut.start g
  obtain ⟨layout, placed, waiting, h, ⟨hok, rfl, hfits⟩ | ⟨herror, hfull⟩⟩ :=
    layOut_spec hshares hstart (by decide)
  -- Runs of all nodes take just the room of all edges, behind the entry of the root.
  · have hroom := room_eq_edgeTotal h.lists.nodup h.placed_mem
      fun n hn hedges => (h.mem_iff n).mpr ⟨hn, hedges⟩
    exact .inl ⟨layout, placed, hok, ⟨h.lists, h.mem_iff, hfits⟩,
      by rwa [h.lists.next_eq, hroom] at hfits⟩
  -- If the layout is full, the nodes placed so far already take more than there is.
  · have hroom := room_le_edgeTotal h.lists.nodup h.placed_mem
    rw [h.lists.next_eq] at hfull
    exact .inr ⟨herror, by omega⟩

/-! ## §4 The entries -/

/-- The entries of a graph that is laid out. -/
def entriesFor (layout : Layout) (g : WordGraph) : List Nat :=
  layout.runFor g.root * 0x400 :: layout.order.reverse.flatMap (runEntries layout)

/-- **A graph is written exactly if its edges fit.** -/
theorem encode_eq_error_iff {g : WordGraph} (hshares : SharesSoundly g.nodes g.size)
    (fault : ImageFault) :
    encode g = .error fault ↔ fault = .tooManyEdges ∧ maxEntries < 1 + g.edgeTotal := by
  unfold encode
  rcases layOut_root hshares with ⟨layout, placed, hok, -, hfits⟩ | ⟨herror, hfull⟩
  · simp [hok, Nat.not_lt.mpr hfits]
  · simp [herror, hfull, eq_comm]

/-- What is written are the entries of the layout. -/
theorem exists_layout_of_encode {g : WordGraph} (hshares : SharesSoundly g.nodes g.size)
    {bytes : List UInt8} (h : encode g = .ok bytes) :
    ∃ layout placed, IsLayout g layout placed ∧
      bytes = magic ++ wordBytes layout.next ++ (entriesFor layout g).flatMap wordBytes := by
  unfold encode at h
  rcases layOut_root hshares with ⟨layout, placed, hok, hlayout, -⟩ | ⟨herror, -⟩
  · rw [hok] at h
    cases h
    exact ⟨layout, placed, hlayout, rfl⟩
  · rw [herror] at h
    cases h

section Fields

variable (letter : UInt8) (terminal last : Bool) (run : Nat)

@[simp] theorem letterOf_entryOf : letterOf (entryOf letter terminal last run) = letter := by
  have hletter := letter.toNat_lt
  rw [letterOf, ← UInt8.toNat_inj, UInt8.toNat_ofNat', entryOf]
  cases terminal <;> cases last <;> simp <;> omega

@[simp] theorem isTerminal_entryOf : isTerminal (entryOf letter terminal last run) = terminal := by
  have hletter := letter.toNat_lt
  rw [isTerminal, entryOf, Nat.testBit_eq_decide_div_mod_eq]
  cases terminal <;> cases last <;> simp <;> omega

@[simp] theorem isLast_entryOf : isLast (entryOf letter terminal last run) = last := by
  have hletter := letter.toNat_lt
  rw [isLast, entryOf, Nat.testBit_eq_decide_div_mod_eq]
  cases terminal <;> cases last <;> simp <;> omega

@[simp] theorem runOf_entryOf : runOf (entryOf letter terminal last run) = run := by
  have hletter := letter.toNat_lt
  rw [runOf, entryOf]
  cases terminal <;> cases last <;> simp <;> omega

theorem entryOf_lt {run : Nat} (hrun : run < maxEntries) :
    entryOf letter terminal last run < wordLimit := by
  have hletter := letter.toNat_lt
  unfold maxEntries at hrun
  unfold entryOf wordLimit
  cases terminal <;> cases last <;> simp <;> omega

end Fields

@[simp] theorem length_runEntries (layout : Layout) (e : Edges) :
    (runEntries layout e).length = e.letters.length := by
  induction e with
  | nil => rfl
  | edge l m below others _ ihOthers => simp [runEntries, ihOthers]

theorem length_flatMap_runEntries (layout : Layout) (nodes : List Node) :
    (nodes.flatMap fun n => runEntries layout n.edges).length = room nodes := by
  induction nodes with
  | nil => rfl
  | cons n nodes ih =>
    rw [List.flatMap_cons, List.length_append, length_runEntries, ih, room_cons, Node.degree]

theorem exists_of_mem_runEntries {layout : Layout} {e : Edges} {entry : Nat}
    (h : entry ∈ runEntries layout e) :
    ∃ letter last, ∃ c ∈ e.targets,
      entry = entryOf letter c.mark.terminal last (layout.runFor c) := by
  induction e with
  | nil => simp [runEntries] at h
  | edge l m below others _ ihOthers =>
    simp only [runEntries, List.mem_cons] at h
    rcases h with rfl | h
    · exact ⟨_, _, ⟨m, below⟩, by simp, rfl⟩
    · obtain ⟨letter, last, c, hc, rfl⟩ := ihOthers h
      exact ⟨letter, last, c, by simp [hc], rfl⟩

/-- The entries lie in the table from the place on. -/
def Holds (table : Array Nat) (place : Nat) (entries : List Nat) : Prop :=
  ∀ i entry, entries[i]? = some entry → table[place + i]? = some entry

theorem Holds.head {table : Array Nat} {place entry : Nat} {entries : List Nat}
    (h : Holds table place (entry :: entries)) : table[place]? = some entry := h 0 entry rfl

theorem Holds.tail {table : Array Nat} {place entry : Nat} {entries : List Nat}
    (h : Holds table place (entry :: entries)) : Holds table (place + 1) entries := by
  intro i other hi
  rw [show place + 1 + i = place + (i + 1) by omega]
  exact h (i + 1) other hi

/-! ### The table of a layout -/

namespace IsLayout

variable {g : WordGraph} {layout : Layout} {placed : List Node}

theorem entriesFor_eq (h : IsLayout g layout placed) : entriesFor layout g =
    layout.runFor g.root * 0x400 :: placed.flatMap fun n => runEntries layout n.edges := by
  rw [entriesFor, h.lists.order_eq, List.flatMap_map]

/-- **Each node laid out has its entries in the table**, from its run on. -/
theorem holds (h : IsLayout g layout placed) {n : Node} (hn : n ∈ placed) :
    Holds (entriesFor layout g).toArray (layout.runFor n) (runEntries layout n.edges) := by
  obtain ⟨before, after, rfl⟩ := List.append_of_mem hn
  intro i entry hi
  obtain ⟨hlt, -⟩ := List.getElem?_eq_some_iff.mp hi
  rw [h.lists.runFor_eq, List.getElem?_toArray, h.entriesFor_eq,
    show 1 + room before + i = (room before + i) + 1 by omega, List.getElem?_cons_succ,
    List.flatMap_append, List.flatMap_cons,
    List.getElem?_append_right (by rw [length_flatMap_runEntries]; omega),
    length_flatMap_runEntries, Nat.add_sub_cancel_left, List.getElem?_append_left hlt]
  exact hi

theorem runFor_pos (h : IsLayout g layout placed) {n : Node} (hn : n ∈ placed) :
    layout.runFor n ≠ 0 := by
  obtain ⟨before, after, rfl⟩ := List.append_of_mem hn
  rw [h.lists.runFor_eq]
  omega

/-- A node without edges has no run. -/
theorem runFor_eq_zero (h : IsLayout g layout placed) (hshares : SharesSoundly g.nodes g.size)
    {n : Node} (hn : n ∈ g.nodes) (hedges : n.edges = .nil) : layout.runFor n = 0 := by
  cases hrun : layout.runs[n.mark.number]? with
  | none => simp [Layout.runFor, hrun]
  | some run =>
    obtain ⟨m, hm, hnumber⟩ := h.lists.placed_of_run _ _ hrun
    obtain ⟨hmem, hmedges⟩ := (h.mem_iff m).mp hm
    rw [hshares.eq_of_number_eq hmem hn hnumber] at hmedges
    exact absurd hedges hmedges

/-- Runs fit in an entry. -/
theorem runFor_lt (h : IsLayout g layout placed) (hshares : SharesSoundly g.nodes g.size)
    {n : Node} (hn : n ∈ g.nodes) : layout.runFor n < maxEntries := by
  by_cases hedges : n.edges = .nil
  · rw [h.runFor_eq_zero hshares hn hedges]
    decide
  · have hfits := h.fits
    rw [h.lists.next_eq] at hfits
    -- Before the run stand the runs of the nodes placed earlier, and it has at least one entry
    -- itself.
    obtain ⟨before, after, rfl⟩ := List.append_of_mem ((h.mem_iff n).mpr ⟨hn, hedges⟩)
    have hdegree := Node.degree_pos hedges
    rw [h.lists.runFor_eq]
    simp only [room_append, room_cons] at hfits
    omega

/-- Different nodes with edges have different runs. -/
theorem eq_of_runFor_eq (h : IsLayout g layout placed) {n m : Node} (hn : n ∈ placed)
    (hm : m ∈ placed) (hrun : layout.runFor n = layout.runFor m) : n = m := by
  -- Of two places in the order of placing, the earlier one has the smaller run.
  obtain ⟨before, after, rfl⟩ := List.append_of_mem hn
  have hlists := h.lists
  rcases List.mem_append.mp hm with hm | hm
  · obtain ⟨before', between, rfl⟩ := List.append_of_mem hm
    rw [List.append_assoc, List.cons_append] at hlists
    exact absurd hrun (Nat.ne_of_gt hlists.runFor_lt_runFor)
  · rcases List.mem_cons.mp hm with rfl | hm
    · rfl
    · obtain ⟨between, after', rfl⟩ := List.append_of_mem hm
      exact absurd hrun (Nat.ne_of_lt hlists.runFor_lt_runFor)

/-- **What is written is the image of the table.** -/
theorem isImage (h : IsLayout g layout placed) (hshares : SharesSoundly g.nodes g.size) :
    IsImage (magic ++ wordBytes layout.next ++ (entriesFor layout g).flatMap wordBytes)
      (entriesFor layout g).toArray := by
  have hsize : (entriesFor layout g).length = layout.next := by
    rw [h.entriesFor_eq, h.lists.next_eq, List.length_cons, length_flatMap_runEntries]
    omega
  -- The limit of entries leaves the numbers in four bytes.
  have hfits := h.fits
  unfold maxEntries at hfits
  refine ⟨?_, ?_, ?_, ?_⟩
  · rw [List.size_toArray, hsize]
  · rw [List.size_toArray, entriesFor, List.length_cons]
    omega
  · rw [List.size_toArray, hsize]
    unfold wordLimit
    omega
  · intro entry hentry
    rw [h.entriesFor_eq] at hentry
    rcases List.mem_cons.mp hentry with rfl | hentry
    · have hrun := h.runFor_lt hshares g.root_mem_nodes
      unfold maxEntries at hrun
      unfold wordLimit
      omega
    · obtain ⟨n, hn, hentry⟩ := List.mem_flatMap.mp hentry
      obtain ⟨letter, last, c, hc, rfl⟩ := exists_of_mem_runEntries hentry
      exact entryOf_lt _ _ _ (h.runFor_lt hshares
        (WordGraph.mem_nodes_of_mem_targets ((h.mem_iff n).mp hn).1 hc))

end IsLayout

end Image

end WordStudy
