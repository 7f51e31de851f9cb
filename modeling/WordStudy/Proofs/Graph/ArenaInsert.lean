import WordStudy.Proofs.Graph.Arena

/-!
# Adding a word to a table

A word is added to a table along one path. What stands at a place is changed there only if it is
**unfrozen and on the path**, so everything else that the table holds stays as it was. As long as 32
bits tell the places apart, the table therefore goes on to hold the graph.
-/

namespace WordStudy

/-! ## §1 One edge put in its place -/

theorem Mark.frozen_thaw (m : Mark) (next : Nat) : (m.thaw next).1.frozen = false := by
  cases hfrozen : m.frozen <;> simp [Mark.thaw, hfrozen]

namespace Edges

/-- The edges with one that leads to a node, in place of one with the same letter. -/
def put (l : UInt8) (n : Node) : Edges → Edges
  | nil => edge l n.mark n.edges nil
  | edge k m below others =>
    if l < k then edge l n.mark n.edges (edge k m below others)
    else if l = k then edge l n.mark n.edges others
    else edge k m below (put l n others)

/-- The edges other than the one with a letter. -/
def without (l : UInt8) : Edges → Edges
  | nil => nil
  | edge k m below others => if k = l then others else edge k m below (others.without l)

/-- The node to go on from when a word is added, and the next free number: the node behind the
edge with a letter, thawed, or a new one. -/
def reach (l : UInt8) (next : Nat) (e : Edges) : Node × Nat :=
  match e.child? l with
  | some c => (⟨(c.mark.thaw next).1, c.edges⟩, (c.mark.thaw next).2)
  | none => (⟨⟨next, false, false⟩, nil⟩, next + 1)

theorem links_put (l : UInt8) (n : Node) (e : Edges) :
    (e.put l n).links = Arena.putLink l n.place e.links := by
  induction e with
  | nil => rfl
  | edge k m below others _ ihOthers =>
    simp only [put, links_edge, Arena.putLink]
    split
    · rfl
    split
    · rfl
    · rw [links_edge, ihOthers]

theorem without_of_notMem {e : Edges} {l : UInt8} (h : l ∉ e.letters) : e.without l = e := by
  induction e with
  | nil => rfl
  | edge k m below others _ ihOthers =>
    simp only [letters_edge, List.mem_cons, not_or] at h
    rw [without, if_neg (Ne.symm h.1), ihOthers h.2]

theorem child?_eq_none_iff {e : Edges} {l : UInt8} : e.child? l = none ↔ l ∉ e.letters := by
  induction e with
  | nil => simp [child?, letters, toList]
  | edge k m below others _ ihOthers =>
    rw [child?, letters_edge, List.mem_cons, not_or]
    by_cases h : k = l
    · simp [h]
    · simp [h, ihOthers, Ne.symm h]

/-- A letter before the first of sorted edges is not one of theirs. -/
theorem Sorted.notMem_letters {l k : UInt8} {m : Mark} {below others : Edges}
    (h : (edge k m below others).Sorted) (hlt : l < k) : l ∉ (edge k m below others).letters := by
  simp only [letters_edge, List.mem_cons, not_or]
  exact ⟨UInt8.ne_of_lt hlt, fun hl => UInt8.lt_asymm hlt (h.2.1 l hl)⟩

theorem mem_nodes_of_without {e : Edges} {l : UInt8} {n : Node} (h : n ∈ (e.without l).nodes) :
    n ∈ e.nodes := by
  induction e with
  | nil => cases h
  | edge k m below others _ ihOthers =>
    rw [without] at h
    split at h
    · simp [h]
    · simp only [nodes_edge, List.mem_cons, List.mem_append] at h ⊢
      exact h.imp_right (Or.imp_right ihOthers)

/-- The nodes of another edge may be named first. -/
private theorem perm_cons_append (x n : Node) (xs ns others : List Node) :
    (x :: (xs ++ n :: (ns ++ others))).Perm (n :: (ns ++ x :: (xs ++ others))) := by
  have h := (@List.perm_append_comm _ (x :: xs) (n :: ns)).append_right others
  simpa using h

/-- **The nodes after an edge is put in its place**: those behind it and those of the others. -/
theorem nodes_put {e : Edges} (h : e.Sorted) (l : UInt8) (n : Node) :
    (e.put l n).nodes.Perm (n :: (n.edges.nodes ++ (e.without l).nodes)) := by
  induction e with
  | nil => exact List.Perm.refl _
  | edge k m below others _ ihOthers =>
    -- The new edge goes before this one, in its place, or behind it.
    simp only [put]
    split
    · next hlt => rw [without_of_notMem (h.notMem_letters hlt), nodes_edge]
    split
    · next heq =>
      rw [without, if_pos heq.symm, nodes_edge]
    · next hne =>
      rw [without, if_neg (Ne.symm hne), nodes_edge, nodes_edge]
      exact (((ihOthers h.2.2).append_left _).cons _).trans (perm_cons_append _ _ _ _ _)

/-- The nodes behind an edge and those of the others are all nodes. -/
theorem nodes_of_child? {e : Edges} {l : UInt8} {c : Node} (h : e.child? l = some c) :
    e.nodes.Perm (c :: (c.edges.nodes ++ (e.without l).nodes)) := by
  induction e with
  | nil => cases h
  | edge k m below others _ ihOthers =>
    simp only [child?] at h
    split at h
    · next heq =>
      cases h
      rw [without, if_pos heq, nodes_edge]
    · next hne =>
      rw [without, if_neg hne, nodes_edge, nodes_edge]
      exact (((ihOthers h).append_left _).cons _).trans (perm_cons_append _ _ _ _ _)

end Edges

/-- The node with a word added below it, and the next free number. -/
def Node.spell (n : Node) (w : Word) (next : Nat) : Node × Nat :=
  match w with
  | [] => (⟨{ n.mark with terminal := true }, n.edges⟩, next)
  | l :: w => (⟨n.mark, (n.edges.insert l w next).1⟩, (n.edges.insert l w next).2)

@[simp] theorem Node.place_spell (n : Node) (w : Word) (next : Nat) :
    (n.spell w next).1.place = n.place := by cases w <;> rfl

namespace Edges

/-- A chain in front of edges is an edge to its first node. -/
theorem chain_eq (l : UInt8) (w : Word) (next : Nat) (others : Edges) :
    chain l w next others =
      edge l ((⟨⟨next, false, false⟩, nil⟩ : Node).spell w (next + 1)).1.mark
        ((⟨⟨next, false, false⟩, nil⟩ : Node).spell w (next + 1)).1.edges others ∧
    ((⟨⟨next, false, false⟩, nil⟩ : Node).spell w (next + 1)).2 = next + (w.length + 1) := by
  cases w with
  | nil => exact ⟨rfl, rfl⟩
  | cons c w =>
    refine ⟨rfl, ?_⟩
    simp only [Node.spell, insert, List.length_cons]
    omega

/-- **An insertion puts one edge in its place**: one to the node that it reaches, with the rest of
the word below. -/
theorem insert_eq_put {e : Edges} (h : e.Sorted) (l : UInt8) (w : Word) (next : Nat) :
    e.insert l w next =
      (e.put l ((e.reach l next).1.spell w (e.reach l next).2).1,
        ((e.reach l next).1.spell w (e.reach l next).2).2) := by
  induction e with
  | nil =>
    obtain ⟨hchain, hnext⟩ := chain_eq l w next nil
    rw [insert, reach, child?, put, hnext, hchain]
  | edge k m below others _ ihOthers =>
    simp only [insert, put]
    -- The letter is new before this edge, it is this edge's, or it is looked up behind.
    split
    · next hlt =>
      have hnone := child?_eq_none_iff.mpr (h.notMem_letters hlt)
      obtain ⟨hchain, hnext⟩ := chain_eq l w next (edge k m below others)
      rw [reach, hnone, hnext, hchain]
    split
    · next heq =>
      have hsome : (edge k m below others).child? l = some ⟨m, below⟩ := by
        rw [child?, if_pos heq.symm]
      rw [reach, hsome, heq]
      cases w <;> rfl
    · next hne =>
      have hchild : (edge k m below others).reach l next = others.reach l next := by
        rw [reach, reach, child?, if_neg (Ne.symm hne)]
      rw [hchild, ihOthers h.2.2]

theorem frozen_reach (l : UInt8) (next : Nat) (e : Edges) :
    (e.reach l next).1.mark.frozen = false := by
  unfold reach
  split
  · exact Mark.frozen_thaw _ next
  · rfl

theorem Sorted.reach {e : Edges} (h : e.Sorted) (l : UInt8) (next : Nat) :
    (e.reach l next).1.edges.Sorted := by
  unfold Edges.reach
  split
  · next c hchild =>
    show c.edges.Sorted
    exact h.of_child? hchild
  · trivial

/-- Unfrozen nodes are single among fewer nodes. -/
theorem nodup_looseNumbers_of_subperm {nodes nodes' : List Node}
    (h : (looseNumbers nodes).Nodup) (hsub : nodes'.Subperm nodes) :
    (looseNumbers nodes').Nodup := by
  obtain ⟨nodes'', hperm, hsublist⟩ := hsub
  exact (h.sublist ((hsublist.filter _).map _)).perm ((hperm.filter _).map _)

/-- What becomes of the nodes behind an edge when an insertion reaches it. -/
theorem grows_reach {e : Edges} {next : Nat} (l : UInt8)
    (hbound : ∀ n ∈ e.nodes, n.mark.number < next) (hsingle : (looseNumbers e.nodes).Nodup) :
    ∃ old, e.nodes.Perm (old ++ (e.without l).nodes) ∧
      Grows old ((e.reach l next).1 :: (e.reach l next).1.edges.nodes) next (e.reach l next).2 := by
  cases hchild : e.child? l with
  | none =>
    refine ⟨[], ?_, ?_⟩
    · rw [without_of_notMem (child?_eq_none_iff.mp hchild), List.nil_append]
    · rw [reach, hchild]
      have hnone : Grows [] [] (next + 1) (next + 1) := Grows.refl (by simp) _
      exact hnone.cons_fresh (by simp) false nil
  | some c =>
    have hperm := nodes_of_child? hchild
    have hold : (c :: c.edges.nodes).Subperm e.nodes :=
      (List.sublist_append_left _ _).subperm.trans hperm.symm.subperm
    have hloose := nodup_looseNumbers_of_subperm hsingle hold
    have hbelow : (looseNumbers c.edges.nodes).Nodup :=
      hloose.sublist (((List.sublist_cons_self _ _).filter _).map _)
    refine ⟨c :: c.edges.nodes, hperm, ?_⟩
    rw [reach, hchild]
    have hgrows := (Grows.refl hbelow (c.mark.thaw next).2).cons_thaw
      (fun n hn => hbound n (hold.subset hn)) hloose (c.mark.thaw next).1.terminal c.edges
    exact hgrows

end Edges

/-- Sharing is sound among fewer nodes. -/
theorem SharesSoundly.of_subperm {nodes nodes' : List Node} {size : Nat}
    (h : SharesSoundly nodes size) (hsub : nodes'.Subperm nodes) : SharesSoundly nodes' size where
  bounded n hn := h.bounded n (hsub.subset hn)
  frozen_below n hn := h.frozen_below n (hsub.subset hn)
  agree n hn m hm := h.agree n (hsub.subset hn) m (hsub.subset hm)
  single := Edges.nodup_looseNumbers_of_subperm h.single hsub

/-- Sharing stays sound when a node is thawed. -/
theorem SharesSoundly.thaw {n : Node} {next : Nat} (h : SharesSoundly (n :: n.edges.nodes) next) :
    SharesSoundly (⟨(n.mark.thaw next).1, n.edges⟩ :: n.edges.nodes) (n.mark.thaw next).2 := by
  have hbelow := (h.of_subperm (List.sublist_cons_self _ _).subperm).single
  exact h.of_grows ((Grows.refl hbelow (n.mark.thaw next).2).cons_thaw h.bounded h.single
    (n.mark.thaw next).1.terminal n.edges)

/-- **The node that an insertion reaches shares nothing with the rest** that would change: neither
with the node that it is reached from nor with what is behind the other edges. -/
theorem SharesSoundly.reach {n : Node} {next : Nat} (h : SharesSoundly (n :: n.edges.nodes) next)
    (l : UInt8) {c : Node} {next' : Nat} (hc : n.edges.reach l next = (c, next')) :
    next ≤ next' ∧ SharesSoundly (c :: c.edges.nodes) next' ∧
    (∀ x ∈ c :: c.edges.nodes, x.mark.number ≠ n.mark.number) ∧
    (∀ x ∈ (n.edges.without l).nodes, x.mark.number ∉ looseNumbers (c :: c.edges.nodes)) ∧
    ∀ k < next, k ∈ looseNumbers (c :: c.edges.nodes) → k ∈ looseNumbers n.edges.nodes := by
  have hn := h.bounded n (List.mem_cons_self ..)
  have hedges := h.of_subperm (List.sublist_cons_self _ _).subperm
  obtain ⟨old, hperm, hgrows⟩ := Edges.grows_reach l hedges.bounded hedges.single
  rw [hc] at hgrows
  have hold {x : Node} (hx : x ∈ old) : x ∈ n.edges.nodes :=
    hperm.symm.subset (List.mem_append_left _ hx)
  have holdSub : old.Subperm n.edges.nodes :=
    (List.sublist_append_left _ _).subperm.trans hperm.symm.subperm
  refine ⟨hgrows.le, (hedges.of_subperm holdSub).of_grows hgrows, ?_, ?_, ?_⟩
  · -- What is reached is frozen and was there, or has a new number or that of an unfrozen node.
    intro x hx
    cases hfrozen : x.mark.frozen with
    | true => exact h.number_ne (hold (hgrows.frozen_old x hx hfrozen))
    | false =>
      rcases hgrows.loose_old_or_fresh _ (mem_looseNumbers.mpr ⟨x, hx, hfrozen, rfl⟩) with hk | hk
      · obtain ⟨y, hy, -, hnumber⟩ := mem_looseNumbers.mp hk
        exact hnumber ▸ h.number_ne (hold hy)
      · exact Nat.ne_of_gt (Nat.lt_of_lt_of_le hn hk.1)
  · -- An unfrozen node has one edge that leads to it, so it is not behind another one as well.
    intro x hx hk
    have hmem : x ∈ n.edges.nodes := hperm.symm.subset (List.mem_append_right _ hx)
    rcases hgrows.loose_old_or_fresh _ hk with hk | hk
    · obtain ⟨y, hy, hloose, hnumber⟩ := mem_looseNumbers.mp hk
      obtain rfl := hedges.eq_of_number_eq (hold hy) hmem hnumber
      have hsingle := Edges.nodup_looseNumbers_of_subperm hedges.single hperm.symm.subperm
      rw [looseNumbers_append, List.nodup_append] at hsingle
      exact hsingle.2.2 _ hk _ (mem_looseNumbers.mpr ⟨y, hx, hloose, rfl⟩) rfl
    · exact absurd hk.1 (Nat.not_le_of_lt (hedges.bounded x hmem))
  · intro k hlt hk
    rcases hgrows.loose_old_or_fresh k hk with hk | hk
    · obtain ⟨y, hy, hloose, hnumber⟩ := mem_looseNumbers.mp hk
      exact mem_looseNumbers.mpr ⟨y, hold hy, hloose, hnumber⟩
    · exact absurd hk.1 (Nat.not_le_of_lt hlt)

/-! ## §2 One step along the path -/

namespace Arena

@[simp] theorem size_push (a : Arena) (c : NodeCell) : (a.push c).1.cells.size = a.cells.size + 1 :=
  Array.size_push c

@[simp] theorem size_change (a : Arena) (id : UInt32) (f : NodeCell → NodeCell) :
    (a.change id f).cells.size = a.cells.size := Array.size_modify

theorem getElem?_push (a : Arena) (c : NodeCell) (i : Nat) :
    (a.push c).1.cells[i]? = if i = a.cells.size then some c else a.cells[i]? := Array.getElem?_push

theorem getElem?_change (a : Arena) {n : Node} (hn : n.mark.number < maxCells)
    (f : NodeCell → NodeCell) (i : Nat) :
    (a.change n.place f).cells[i]? =
      if n.mark.number = i then (a.cells[i]?).map f else a.cells[i]? := by
  rw [change, n.toNat_place hn, Array.getElem?_modify]

/-- What a step finds or makes: the unfrozen node behind the edge with the letter. -/
theorem reach_spec {a : Arena} {n : Node} {next : Nat} (hsize : a.cells.size = next)
    (hholds : HoldsNodes a.cells (n :: n.edges.nodes))
    (hbound : ∀ x ∈ n :: n.edges.nodes, x.mark.number < next) (hsmall : next ≤ maxCells)
    (l : UInt8) :
    (a.reach n.place l).2 = (n.edges.reach l next).1.place ∧
    (a.reach n.place l).1.cells.size = (n.edges.reach l next).2 ∧
    HoldsNodes (a.reach n.place l).1.cells
      ((n.edges.reach l next).1 :: (n.edges.reach l next).1.edges.nodes) ∧
    ∀ i < next, (a.reach n.place l).1.cells[i]? = a.cells[i]? := by
  have hcell {x : Node} (hx : x ∈ n :: n.edges.nodes) : a.cell x.place = x.cell :=
    cell_place hholds hx (Nat.lt_of_lt_of_le (hbound x hx) hsmall)
  rw [reach, hcell (List.mem_cons_self ..), n.target?_cell, Edges.reach]
  -- A pushed node is behind all that were there.
  have hbehind (c : NodeCell) {i : Nat} (hi : i < next) : (a.push c).1.cells[i]? = a.cells[i]? := by
    rw [getElem?_push, if_neg (by omega)]
  have hpushed (c : NodeCell) : (a.push c).1.cells[next]? = some c := by
    rw [getElem?_push, if_pos hsize.symm]
  cases hchild : n.edges.child? l with
  | none =>
    refine ⟨congrArg UInt32.ofNat hsize, by simp [hsize], ?_, fun i hi => hbehind _ hi⟩
    intro x hx
    obtain rfl := List.mem_singleton.mp hx
    exact hpushed {}
  | some c =>
    have hc : c ∈ n.edges.nodes := (Edges.nodes_of_child? hchild).symm.subset (by simp)
    have hbelow {x : Node} (hx : x ∈ c.edges.nodes) : x ∈ n :: n.edges.nodes :=
      List.mem_cons_of_mem _ ((Edges.nodes_of_child? hchild).symm.subset (by simp [hx]))
    simp only [Option.map_some, thaw, hcell (List.mem_cons_of_mem _ hc), Mark.thaw]
    cases hfrozen : c.mark.frozen with
    | true =>
      simp only [Node.cell, hfrozen, if_true]
      refine ⟨congrArg UInt32.ofNat hsize, by simp [hsize], ?_, fun i hi => hbehind _ hi⟩
      intro x hx
      rcases List.mem_cons.mp hx with rfl | hx
      · exact hpushed _
      · rw [hbehind _ (hbound x (hbelow hx)), hholds x (hbelow hx)]
    | false =>
      simp only [Node.cell, hfrozen, Bool.false_eq_true, if_false]
      refine ⟨trivial, hsize, ?_, fun _ _ => trivial⟩
      intro x hx
      rcases List.mem_cons.mp hx with rfl | hx
      · exact hholds _ (List.mem_cons_of_mem _ hc)
      · exact hholds x (hbelow hx)

theorem descend_eq (a : Arena) (id : UInt32) (l : UInt8) :
    a.descend id l = ((a.reach id l).1.change id fun c =>
      { c with links := putLink l (a.reach id l).2 c.links }, (a.reach id l).2) := rfl

/-- **A step changes the node it comes from**, and holds the node it goes on from. -/
theorem descend_spec {a : Arena} {n : Node} {next : Nat} (hsize : a.cells.size = next)
    (hholds : HoldsNodes a.cells (n :: n.edges.nodes))
    (hshares : SharesSoundly (n :: n.edges.nodes) next) (hsmall : next ≤ maxCells) (l : UInt8)
    (hother : ∀ x ∈ (n.edges.reach l next).1 :: (n.edges.reach l next).1.edges.nodes,
      x.mark.number ≠ n.mark.number) :
    (a.descend n.place l).2 = (n.edges.reach l next).1.place ∧
    (a.descend n.place l).1.cells.size = (n.edges.reach l next).2 ∧
    HoldsNodes (a.descend n.place l).1.cells
      ((n.edges.reach l next).1 :: (n.edges.reach l next).1.edges.nodes) ∧
    (a.descend n.place l).1.cells[n.mark.number]? =
      some { n.cell with links := putLink l (n.edges.reach l next).1.place n.edges.links } ∧
    ∀ i < next, i ≠ n.mark.number → (a.descend n.place l).1.cells[i]? = a.cells[i]? := by
  have hn := hshares.bounded n (List.mem_cons_self ..)
  obtain ⟨htarget, hreached, hnodes, hbefore⟩ := reach_spec hsize hholds hshares.bounded hsmall l
  have hchange := (a.reach n.place l).1.getElem?_change (Nat.lt_of_lt_of_le hn hsmall)
    fun c => { c with links := putLink l (a.reach n.place l).2 c.links }
  rw [descend_eq]
  -- The cell of the node gets the link; the other cells are as the step left them.
  refine ⟨htarget, by simpa using hreached, ?_, ?_, ?_⟩
  · intro x hx
    rw [hchange, if_neg (Ne.symm (hother x hx)), hnodes x hx]
  · rw [hchange, if_pos rfl, hbefore _ hn, hholds n (List.mem_cons_self ..), htarget]
    rfl
  · intro i hi hne
    rw [hchange, if_neg (Ne.symm hne), hbefore i hi]

/-! ## §3 The whole path -/

theorem size_le_reach (a : Arena) (id : UInt32) (l : UInt8) :
    a.cells.size ≤ (a.reach id l).1.cells.size := by
  unfold reach
  split
  · unfold thaw
    split <;> simp
  · simp

/-- Nodes are never taken away from the table while a word is spelled. -/
theorem size_le_spell (a : Arena) (id : UInt32) (w : Word) :
    a.cells.size ≤ (a.spell id w).cells.size := by
  induction w generalizing a id with
  | nil => simp [spell]
  | cons l w ih =>
    have hstep : a.cells.size ≤ (a.descend id l).1.cells.size := by
      rw [descend_eq, size_change]
      exact a.size_le_reach id l
    exact Nat.le_trans hstep (ih _ _)

/-- **A table holds a node with an edge put in its place** if it holds the node that the edge leads
to, the nodes of the other edges and the new link. -/
theorem HoldsNodes.put {cells : Array NodeCell} {n c : Node} {l : UInt8}
    (hsorted : n.edges.Sorted) (hbelow : HoldsNodes cells (c :: c.edges.nodes))
    (hothers : HoldsNodes cells (n.edges.without l).nodes)
    (hlink : cells[n.mark.number]? =
      some { n.cell with links := putLink l c.place n.edges.links }) :
    HoldsNodes cells (⟨n.mark, n.edges.put l c⟩ :: (n.edges.put l c).nodes) := by
  intro x hx
  rcases List.mem_cons.mp hx with rfl | hx
  · have hcell : (⟨n.mark, n.edges.put l c⟩ : Node).cell =
        { n.cell with links := putLink l c.place n.edges.links } := by
      rw [Node.cell, Edges.links_put]
      rfl
    rw [hlink, hcell]
  · have hmem : x ∈ (c :: c.edges.nodes) ++ (n.edges.without l).nodes :=
      (Edges.nodes_put hsorted l c).subset hx
    rcases List.mem_append.mp hmem with hx | hx
    · exact hbelow x hx
    · exact hothers x hx

/-- At the end of a word its node is marked, and no other cell changes. -/
theorem spell_nil_spec {a : Arena} {n : Node} {next : Nat}
    (hholds : HoldsNodes a.cells (n :: n.edges.nodes))
    (hshares : SharesSoundly (n :: n.edges.nodes) next) (hroom : next ≤ maxCells) :
    HoldsNodes (a.spell n.place []).cells
      ((n.spell [] next).1 :: (n.spell [] next).1.edges.nodes) ∧
    ∀ i, i ≠ n.mark.number → (a.spell n.place []).cells[i]? = a.cells[i]? := by
  have hn := hshares.bounded n (List.mem_cons_self ..)
  have hchange := a.getElem?_change (Nat.lt_of_lt_of_le hn hroom)
    fun c => { c with terminal := true }
  constructor
  · intro x hx
    rcases List.mem_cons.mp hx with rfl | hx
    · rw [spell, hchange]
      simp only [Node.spell, if_true, hholds n (List.mem_cons_self ..)]
      rfl
    · rw [spell, hchange, if_neg (Ne.symm (hshares.number_ne hx))]
      exact hholds x (List.mem_cons_of_mem _ hx)
  · intro i hi
    rw [spell, hchange, if_neg (Ne.symm hi)]

/-- **Spelling a word** in a table that holds an unfrozen node makes it hold the node with the word
added below it. Other places stay as they are, but for those of unfrozen nodes below. -/
theorem spell_spec {a : Arena} {n : Node} {next : Nat} (w : Word) (hsize : a.cells.size = next)
    (hholds : HoldsNodes a.cells (n :: n.edges.nodes))
    (hshares : SharesSoundly (n :: n.edges.nodes) next) (hsorted : n.edges.Sorted)
    (hloose : n.mark.frozen = false) (hsmall : (a.spell n.place w).cells.size ≤ maxCells) :
    (a.spell n.place w).cells.size = (n.spell w next).2 ∧
    HoldsNodes (a.spell n.place w).cells ((n.spell w next).1 :: (n.spell w next).1.edges.nodes) ∧
    ∀ i < next, i ∉ looseNumbers (n :: n.edges.nodes) →
      (a.spell n.place w).cells[i]? = a.cells[i]? := by
  -- One step down for each letter; the cells above are done once their step is taken.
  induction w generalizing a n next with
  | nil =>
    have hsame : (a.spell n.place []).cells.size = a.cells.size := size_change ..
    obtain ⟨hnodes, hframe⟩ := spell_nil_spec hholds hshares (by omega)
    refine ⟨hsame.trans hsize, hnodes, fun i _ hi => hframe i ?_⟩
    rintro rfl
    exact hi (mem_looseNumbers.mpr ⟨n, List.mem_cons_self .., hloose, rfl⟩)
  | cons l w ih =>
    have hn := hshares.bounded n (List.mem_cons_self ..)
    have hroom : next ≤ maxCells := hsize ▸ Nat.le_trans (a.size_le_spell n.place (l :: w)) hsmall
    obtain ⟨c, next', hc⟩ : ∃ c next', n.edges.reach l next = (c, next') := ⟨_, _, rfl⟩
    obtain ⟨hle, hbelow, hapart, hothers, hloose'⟩ := hshares.reach l hc
    have hstep := descend_spec hsize hholds hshares hroom l (by simpa only [hc] using hapart)
    rw [hc] at hstep
    obtain ⟨htarget, hsize', hnodes, hself, hframe⟩ := hstep
    have hspell : a.spell n.place (l :: w) = (a.descend n.place l).1.spell c.place w := by
      rw [← htarget]
      rfl
    have hcsorted := hsorted.reach l next
    have hcloose := Edges.frozen_reach l next n.edges
    rw [hc] at hcsorted hcloose
    obtain ⟨hsize'', hnodes', hframe'⟩ :=
      ih hsize' hnodes hbelow hcsorted hcloose (hspell ▸ hsmall)
    have hput := Edges.insert_eq_put hsorted l w next
    rw [hc] at hput
    rw [hspell, Node.spell, hput]
    refine ⟨hsize'', HoldsNodes.put hsorted hnodes' ?_ ?_, ?_⟩
    · -- The nodes of the other edges are not reached through this one while they are unfrozen.
      intro x hx
      have hmem : x ∈ n.edges.nodes := Edges.mem_nodes_of_without hx
      have hlt := hshares.bounded x (List.mem_cons_of_mem _ hmem)
      rw [hframe' _ (Nat.lt_of_lt_of_le hlt hle) (hothers x hx),
        hframe _ hlt (hshares.number_ne hmem)]
      exact hholds x (List.mem_cons_of_mem _ hmem)
    · -- The node that the step comes from has its new link and does not change any more.
      have hfree : n.mark.number ∉ looseNumbers (c :: c.edges.nodes) := by
        intro hk
        obtain ⟨y, hy, -, hnumber⟩ := mem_looseNumbers.mp hk
        exact hapart y hy hnumber
      rw [hframe' _ (Nat.lt_of_lt_of_le hn hle) hfree, hself, Node.place_spell]
    · intro i hi hfree
      rw [looseNumbers_cons_of_loose hloose, List.mem_cons, not_or] at hfree
      have hfree' : i ∉ looseNumbers (c :: c.edges.nodes) := fun hk => hfree.2 (hloose' i hi hk)
      rw [hframe' i (Nat.lt_of_lt_of_le hi hle) hfree', hframe i hi hfree.1]

/-- The root is thawed before a word is spelled from it. -/
theorem thaw_spec {a : Arena} {g : WordGraph} (h : a.Holds g)
    (hshares : SharesSoundly g.nodes g.size) :
    (a.thaw a.root).2 = Node.place ⟨(g.root.mark.thaw g.size).1, g.root.edges⟩ ∧
    (a.thaw a.root).1.cells.size = (g.root.mark.thaw g.size).2 ∧
    HoldsNodes (a.thaw a.root).1.cells
      (⟨(g.root.mark.thaw g.size).1, g.root.edges⟩ :: g.root.edges.nodes) := by
  have hnodes : HoldsNodes a.cells (g.root :: g.root.edges.nodes) := h.nodes
  rw [thaw, h.root, h.cell_place hshares g.root_mem_nodes, Mark.thaw]
  -- A frozen root is copied to the end, where there is still room; another one is itself.
  cases hfrozen : g.root.mark.frozen with
  | true =>
    simp only [Node.cell, hfrozen, if_true]
    refine ⟨congrArg UInt32.ofNat h.size, by simp [h.size], ?_⟩
    intro x hx
    rcases List.mem_cons.mp hx with rfl | hx
    · rw [getElem?_push, if_pos h.size.symm]
      rfl
    · have hlt := hshares.bounded x (List.mem_cons_of_mem _ hx)
      rw [getElem?_push, if_neg (by rw [h.size]; exact Nat.ne_of_lt hlt)]
      exact hnodes x (List.mem_cons_of_mem _ hx)
  | false =>
    simp only [Node.cell, hfrozen, Bool.false_eq_true, if_false]
    exact ⟨trivial, h.size, hnodes⟩

/-- **A table goes on to hold the graph** when a word is added to both, if 32 bits still tell the
places apart. -/
theorem Holds.insert {a : Arena} {g : WordGraph} (h : a.Holds g) (hsound : g.IsSound) (w : Word)
    (hsmall : (a.insert w).1.cells.size ≤ maxCells) :
    (a.insert w).1.Holds (g.insert w).1 ∧ (a.insert w).2 = (g.insert w).2 := by
  have hshares := hsound.sharesSoundly
  have hcontains := h.contains_eq hshares w
  cases w with
  | nil => exact ⟨h, rfl⟩
  | cons l w =>
    cases hw : g.contains (l :: w) with
    | true =>
      rw [Arena.insert, hcontains, hw, WordGraph.insert_of_not_new (.inr hw)]
      exact ⟨h, rfl⟩
    | false =>
      -- The copy of the root is walked down, so its place is the new root.
      have hinsert : a.insert (l :: w) =
          (⟨((a.thaw a.root).1.spell (a.thaw a.root).2 (l :: w)).cells, (a.thaw a.root).2,
            a.wordCount + 1⟩, true) := by
        rw [Arena.insert, hcontains, hw]
        rfl
      obtain ⟨hroot, hsize, hnodes⟩ := thaw_spec h hshares
      rw [hinsert, hroot] at hsmall ⊢
      rw [WordGraph.insert_of_new hw]
      obtain ⟨hsize', hnodes', -⟩ := spell_spec (l :: w) hsize hnodes hshares.thaw hsound.sorted
        (g.root.mark.frozen_thaw g.size) hsmall
      refine ⟨⟨hnodes', rfl, hsize', congrArg (· + 1) h.wordCount, ?_⟩, rfl⟩
      exact Nat.le_trans (Nat.le_of_eq hsize'.symm) hsmall

end Arena

end WordStudy
