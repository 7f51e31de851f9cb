import Mathlib.Data.List.Nodup
import WordStudy.Proofs.Graph.Insert

/-!
# Sharing of nodes

The same number on two nodes of the tree says that they are one shared node. This is **sound** as
long as a frozen node agrees with every node of its number, has only frozen nodes below it, and an
unfrozen number is on one node only, so that an unfrozen node can be changed where it stands.

Insertion keeps sharing sound, because it changes no frozen node: all frozen nodes behind it were
there before, and each changed node is unfrozen, with its own number or a fresh one.
-/

namespace WordStudy

/-! ## §1 Nodes and numbers -/

/-- All nodes below the edges, once for every path to them. -/
def Edges.nodes : Edges → List Node
  | nil => []
  | edge _ m below others => ⟨m, below⟩ :: (below.nodes ++ others.nodes)

@[simp] theorem Edges.nodes_nil : Edges.nil.nodes = [] := rfl

@[simp] theorem Edges.targets_nil : Edges.nil.targets = [] := rfl

@[simp] theorem Edges.targets_edge (l : UInt8) (m : Mark) (below others : Edges) :
    (Edges.edge l m below others).targets = ⟨m, below⟩ :: others.targets := rfl

@[simp] theorem Edges.nodes_edge (l : UInt8) (m : Mark) (below others : Edges) :
    (Edges.edge l m below others).nodes = ⟨m, below⟩ :: (below.nodes ++ others.nodes) := rfl

/-- All nodes of a graph, once for every path to them. -/
def WordGraph.nodes (g : WordGraph) : List Node := g.root :: g.root.edges.nodes

/-- The numbers of the unfrozen nodes. -/
def looseNumbers (nodes : List Node) : List Nat :=
  (nodes.filter (!·.mark.frozen)).map (·.mark.number)

@[simp] theorem looseNumbers_nil : looseNumbers [] = [] := rfl

@[simp] theorem looseNumbers_append (xs ys : List Node) :
    looseNumbers (xs ++ ys) = looseNumbers xs ++ looseNumbers ys := by
  simp [looseNumbers]

theorem looseNumbers_cons_of_frozen {n : Node} (h : n.mark.frozen = true) (nodes : List Node) :
    looseNumbers (n :: nodes) = looseNumbers nodes := by
  simp [looseNumbers, h]

theorem looseNumbers_cons_of_loose {n : Node} (h : n.mark.frozen = false) (nodes : List Node) :
    looseNumbers (n :: nodes) = n.mark.number :: looseNumbers nodes := by
  simp [looseNumbers, h]

theorem mem_looseNumbers {nodes : List Node} {k : Nat} :
    k ∈ looseNumbers nodes ↔ ∃ n ∈ nodes, n.mark.frozen = false ∧ n.mark.number = k := by
  simp [looseNumbers, and_assoc]

/-- **Sharing is sound** among nodes whose numbers are below `size`. -/
structure SharesSoundly (nodes : List Node) (size : Nat) : Prop where
  bounded : ∀ n ∈ nodes, n.mark.number < size
  /-- Below a frozen node, all nodes are frozen. -/
  frozen_below : ∀ n ∈ nodes, n.mark.frozen = true → ∀ m ∈ n.edges.nodes, m.mark.frozen = true
  /-- A frozen node is the only node of its number. -/
  agree : ∀ n ∈ nodes, ∀ m ∈ nodes, n.mark.frozen = true → n.mark.number = m.mark.number → n = m
  /-- An unfrozen node has one edge that leads to it. -/
  single : (looseNumbers nodes).Nodup

/-- Nodes with the same number are the same. -/
theorem SharesSoundly.eq_of_number_eq {nodes : List Node} {size : Nat}
    (h : SharesSoundly nodes size) {n m : Node} (hn : n ∈ nodes) (hm : m ∈ nodes)
    (heq : n.mark.number = m.mark.number) : n = m := by
  cases hnf : n.mark.frozen with
  | true => exact h.agree n hn m hm hnf heq
  | false =>
    cases hmf : m.mark.frozen with
    | true => exact (h.agree m hm n hn hmf heq.symm).symm
    | false =>
      -- Both are unfrozen, and an unfrozen number is on one node.
      have hn' : n ∈ nodes.filter (!·.mark.frozen) := by simp [hn, hnf]
      have hm' : m ∈ nodes.filter (!·.mark.frozen) := by simp [hm, hmf]
      exact List.inj_on_of_nodup_map h.single hn' hm' heq

/-- What holds of the nodes that edges lead to, and then of those below them, holds of all. -/
theorem Edges.forall_mem_nodes {p : Node → Prop}
    (hclosed : ∀ n, p n → ∀ c ∈ n.edges.targets, p c) {e : Edges} (he : ∀ c ∈ e.targets, p c) :
    ∀ n ∈ e.nodes, p n := by
  induction e with
  | nil => simp
  | edge l m below others ihBelow ihOthers =>
    have hnode : p ⟨m, below⟩ := he _ (by simp)
    intro n hn
    simp only [nodes_edge, List.mem_cons, List.mem_append] at hn
    rcases hn with rfl | hn | hn
    · exact hnode
    · exact ihBelow (hclosed _ hnode) n hn
    · exact ihOthers (fun c hc => he c (by simp [hc])) n hn

/-- **Frozen nodes share soundly** if a number is on one of them only. -/
theorem SharesSoundly.of_frozen {p : Node → Prop} {root : Node} {size : Nat}
    (hclosed : ∀ n, p n → ∀ c ∈ n.edges.targets, p c) (hfrozen : ∀ n, p n → n.mark.frozen = true)
    (hbound : ∀ n, p n → n.mark.number < size)
    (hagree : ∀ n m, p n → p m → n.mark.number = m.mark.number → n = m) (hroot : p root) :
    SharesSoundly (root :: root.edges.nodes) size := by
  have hnodes : ∀ n ∈ root :: root.edges.nodes, p n := by
    intro n hn
    rcases List.mem_cons.mp hn with rfl | hn
    · exact hroot
    · exact Edges.forall_mem_nodes hclosed (hclosed root hroot) n hn
  refine ⟨fun n hn => hbound n (hnodes n hn), ?_, ?_, ?_⟩
  · intro n hn _ m hm
    exact hfrozen m (Edges.forall_mem_nodes hclosed (hclosed n (hnodes n hn)) m hm)
  · intro n hn m hm _ heq
    exact hagree n m (hnodes n hn) (hnodes m hm) heq
  · -- There is no unfrozen node, so none that two edges could lead to.
    have hempty : looseNumbers (root :: root.edges.nodes) = [] := by
      rw [List.eq_nil_iff_forall_not_mem]
      intro k hk
      obtain ⟨n, hn, hloose, _⟩ := mem_looseNumbers.mp hk
      rw [hfrozen n (hnodes n hn)] at hloose
      cases hloose
    rw [hempty]
    exact List.nodup_nil

/-! ## §2 What a change of the graph may do -/

/-- **What may become of nodes** when the next free number moves from `next` to `next'`: frozen
nodes are not made, and unfrozen ones keep a number of their own or take a fresh one. -/
structure Grows (old new : List Node) (next next' : Nat) : Prop where
  le : next ≤ next'
  frozen_old : ∀ n ∈ new, n.mark.frozen = true → n ∈ old
  loose_old_or_fresh : ∀ k ∈ looseNumbers new, k ∈ looseNumbers old ∨ next ≤ k ∧ k < next'
  single : (looseNumbers new).Nodup

/-- **Growing keeps sharing sound.** -/
theorem SharesSoundly.of_grows {old new : List Node} {next next' : Nat}
    (h : SharesSoundly old next) (hgrows : Grows old new next next') :
    SharesSoundly new next' where
  bounded n hn := by
    -- A frozen node is an old one; an unfrozen one has an old number or a fresh one.
    cases hf : n.mark.frozen with
    | true =>
      have hold := h.bounded n (hgrows.frozen_old n hn hf)
      have hle := hgrows.le
      omega
    | false =>
      rcases hgrows.loose_old_or_fresh _ (mem_looseNumbers.mpr ⟨n, hn, hf, rfl⟩) with hk | hk
      · obtain ⟨m, hm, _, heq⟩ := mem_looseNumbers.mp hk
        have hold := h.bounded m hm
        have hle := hgrows.le
        omega
      · exact hk.2
  frozen_below n hn hf := h.frozen_below n (hgrows.frozen_old n hn hf) hf
  agree n hn m hm hf heq := by
    have hnOld := hgrows.frozen_old n hn hf
    cases hmf : m.mark.frozen with
    | true => exact h.agree n hnOld m (hgrows.frozen_old m hm hmf) hf heq
    | false =>
      -- The number of an unfrozen node is not that of a frozen one, old or fresh.
      exfalso
      rcases hgrows.loose_old_or_fresh _ (mem_looseNumbers.mpr ⟨m, hm, hmf, rfl⟩) with hk | hk
      · obtain ⟨m', hm', hmf', heq'⟩ := mem_looseNumbers.mp hk
        have hsame := h.agree n hnOld m' hm' hf (by omega)
        simp [hsame, hmf'] at hf
      · have hold := h.bounded n hnOld
        omega
  single := hgrows.single

/-- Nodes beside those that change do not matter. -/
theorem Grows.append_left {old new : List Node} {next next' : Nat} (h : Grows old new next next')
    (others : List Node) (hbound : ∀ n ∈ others, n.mark.number < next)
    (hsingle : (looseNumbers (others ++ old)).Nodup) :
    Grows (others ++ old) (others ++ new) next next' where
  le := h.le
  frozen_old n hn hf := by
    rcases List.mem_append.mp hn with hn | hn
    · exact List.mem_append_left _ hn
    · exact List.mem_append_right _ (h.frozen_old n hn hf)
  loose_old_or_fresh k hk := by
    simp only [looseNumbers_append, List.mem_append] at hk ⊢
    rcases hk with hk | hk
    · exact .inl (.inl hk)
    · exact (h.loose_old_or_fresh k hk).imp_left .inr
  single := by
    rw [looseNumbers_append, List.nodup_append] at hsingle ⊢
    refine ⟨hsingle.1, h.single, ?_⟩
    -- A number beside is below `next`, so no fresh one meets it.
    intro j hj k hk
    rcases h.loose_old_or_fresh k hk with hold | hfresh
    · exact hsingle.2.2 j hj k hold
    · obtain ⟨n, hn, _, rfl⟩ := mem_looseNumbers.mp hj
      have hlt := hbound n hn
      omega

/-- The order of the nodes does not matter. -/
theorem Grows.of_perm {old old' new new' : List Node} {next next' : Nat}
    (h : Grows old new next next') (hold : old.Perm old') (hnew : new.Perm new') :
    Grows old' new' next next' where
  le := h.le
  frozen_old n hn hf := hold.mem_iff.mp (h.frozen_old n (hnew.mem_iff.mpr hn) hf)
  loose_old_or_fresh k hk := by
    have hloose : ∀ {xs ys : List Node}, xs.Perm ys → (looseNumbers xs).Perm (looseNumbers ys) :=
      fun hperm => (hperm.filter _).map _
    exact (h.loose_old_or_fresh k ((hloose hnew).mem_iff.mpr hk)).imp_left (hloose hold).mem_iff.mp
  single := h.single.perm ((hnew.filter _).map _)

theorem Grows.append_right {old new : List Node} {next next' : Nat} (h : Grows old new next next')
    (others : List Node) (hbound : ∀ n ∈ others, n.mark.number < next)
    (hsingle : (looseNumbers (old ++ others)).Nodup) :
    Grows (old ++ others) (new ++ others) next next' := by
  have hcomm : (looseNumbers (old ++ others)).Perm (looseNumbers (others ++ old)) :=
    (List.perm_append_comm.filter _).map _
  exact (h.append_left others hbound (hsingle.perm hcomm)).of_perm
    List.perm_append_comm List.perm_append_comm

/-- Nothing may change. -/
theorem Grows.refl {nodes : List Node} (hsingle : (looseNumbers nodes).Nodup) (next : Nat) :
    Grows nodes nodes next next where
  le := Nat.le_refl next
  frozen_old _ hn _ := hn
  loose_old_or_fresh _ hk := .inl hk
  single := hsingle

/-- A frozen node may be given up. -/
theorem Grows.cons_old {old new : List Node} {n : Node} {next next' : Nat}
    (h : Grows old new next next') (hf : n.mark.frozen = true) :
    Grows (n :: old) new next next' where
  le := h.le
  frozen_old m hm hmf := List.mem_cons_of_mem _ (h.frozen_old m hm hmf)
  loose_old_or_fresh k hk := by
    rw [looseNumbers_cons_of_frozen hf]
    exact h.loose_old_or_fresh k hk
  single := h.single

/-- A new node takes the next number. -/
theorem Grows.cons_fresh {old new : List Node} {next next' : Nat}
    (h : Grows old new (next + 1) next') (hbound : ∀ n ∈ old, n.mark.number < next)
    (terminal : Bool) (below : Edges) :
    Grows old (⟨⟨next, terminal, false⟩, below⟩ :: new) next next' where
  le := Nat.le_of_succ_le h.le
  frozen_old n hn hf := by
    rcases List.mem_cons.mp hn with rfl | hn
    · simp at hf
    · exact h.frozen_old n hn hf
  loose_old_or_fresh k hk := by
    rw [looseNumbers_cons_of_loose rfl] at hk
    rcases List.mem_cons.mp hk with rfl | hk
    · exact .inr ⟨Nat.le_refl _, h.le⟩
    · exact (h.loose_old_or_fresh k hk).imp_right fun hlow => ⟨Nat.le_of_succ_le hlow.1, hlow.2⟩
  single := by
    rw [looseNumbers_cons_of_loose rfl, List.nodup_cons]
    refine ⟨?_, h.single⟩
    -- The number taken is neither an old one nor one of those taken after it.
    intro hk
    rcases h.loose_old_or_fresh _ hk with hk | hk
    · obtain ⟨n, hn, _, heq⟩ := mem_looseNumbers.mp hk
      have hlt := hbound n hn
      rw [heq] at hlt
      exact absurd hlt (Nat.lt_irrefl next)
    · exact absurd hk.1 (Nat.not_succ_le_self next)

/-- An unfrozen node is changed where it stands. -/
theorem Grows.cons_same {old new : List Node} {m : Mark} {below : Edges} {next next' : Nat}
    (h : Grows old new next next') (hf : m.frozen = false) (hm : m.number < next)
    (hsingle : (looseNumbers (⟨m, below⟩ :: old)).Nodup) (terminal : Bool) (below' : Edges) :
    Grows (⟨m, below⟩ :: old) (⟨⟨m.number, terminal, false⟩, below'⟩ :: new) next next' := by
  rw [looseNumbers_cons_of_loose hf, List.nodup_cons] at hsingle
  refine ⟨h.le, ?_, ?_, ?_⟩
  · intro n hn hnf
    rcases List.mem_cons.mp hn with rfl | hn
    · simp at hnf
    · exact List.mem_cons_of_mem _ (h.frozen_old n hn hnf)
  · intro k hk
    rw [looseNumbers_cons_of_loose rfl] at hk
    rw [looseNumbers_cons_of_loose hf]
    rcases List.mem_cons.mp hk with rfl | hk
    · exact .inl (List.mem_cons_self ..)
    · exact (h.loose_old_or_fresh k hk).imp_left (List.mem_cons_of_mem _)
  · rw [looseNumbers_cons_of_loose rfl, List.nodup_cons]
    refine ⟨?_, h.single⟩
    intro hk
    rcases h.loose_old_or_fresh _ hk with hk | hk
    · exact hsingle.1 hk
    · exact absurd hk.1 (Nat.not_le_of_lt hm)

theorem Mark.le_thaw (m : Mark) (next : Nat) : next ≤ (m.thaw next).2 := by
  unfold thaw
  split
  · exact Nat.le_succ next
  · exact Nat.le_refl next

/-- **A node on the path of an insertion** is thawed before anything below it changes. -/
theorem Grows.cons_thaw {old new : List Node} {m : Mark} {below : Edges} {next next' : Nat}
    (h : Grows old new (m.thaw next).2 next')
    (hbound : ∀ n ∈ ⟨m, below⟩ :: old, n.mark.number < next)
    (hsingle : (looseNumbers (⟨m, below⟩ :: old)).Nodup) (terminal : Bool) (below' : Edges) :
    Grows (⟨m, below⟩ :: old) (⟨{ (m.thaw next).1 with terminal }, below'⟩ :: new) next next' := by
  have hold : ∀ n ∈ old, n.mark.number < next := fun n hn => hbound n (List.mem_cons_of_mem _ hn)
  -- A frozen node is copied under the next number, an unfrozen one stays where it is.
  cases hf : m.frozen with
  | true =>
    simp only [Mark.thaw, hf, if_true] at h ⊢
    exact (h.cons_fresh hold terminal below').cons_old hf
  | false =>
    simp only [Mark.thaw, hf, Bool.false_eq_true, if_false] at h ⊢
    exact h.cons_same hf (hbound ⟨m, below⟩ (List.mem_cons_self ..)) hsingle terminal below'

/-! ## §3 Insertion -/

namespace Edges

/-- A chain is made of new nodes. -/
theorem grows_chain (l : UInt8) (w : Word) (next : Nat) (others : Edges)
    (hbound : ∀ n ∈ others.nodes, n.mark.number < next)
    (hsingle : (looseNumbers others.nodes).Nodup) :
    Grows others.nodes (chain l w next others).nodes next (next + (w.length + 1)) := by
  induction w generalizing l next others with
  | nil => exact (Grows.refl hsingle (next + 1)).cons_fresh hbound true nil
  | cons c w ih =>
    -- The rest of the chain hangs below the first of its nodes, beside the other edges.
    have hchain : Grows [] (chain c w (next + 1) nil).nodes (next + 1) (next + 1 + (w.length + 1)) :=
      ih c (next + 1) nil (by simp) (by simp)
    have hboth := hchain.append_right others.nodes
      (fun n hn => Nat.lt_succ_of_lt (hbound n hn)) hsingle
    have hsize : next + ((c :: w).length + 1) = next + 1 + (w.length + 1) := by
      simp only [List.length_cons]
      omega
    rw [hsize]
    exact hboth.cons_fresh hbound false _

/-- **Insertion makes no frozen node** and gives every changed node a number of its own. -/
theorem grows_insert (e : Edges) (l : UInt8) (w : Word) (next : Nat)
    (hbound : ∀ n ∈ e.nodes, n.mark.number < next) (hsingle : (looseNumbers e.nodes).Nodup) :
    Grows e.nodes (e.insert l w next).1.nodes next (e.insert l w next).2 := by
  induction e generalizing l w next with
  | nil => exact grows_chain l w next nil hbound hsingle
  | edge k m below others ihBelow ihOthers =>
    have hbelow : ∀ n ∈ below.nodes, n.mark.number < next := fun n hn => hbound n (by simp [hn])
    have hothers : ∀ n ∈ others.nodes, n.mark.number < next := fun n hn => hbound n (by simp [hn])
    -- The nodes behind the first are those below it and those of the other edges.
    have htail : (looseNumbers (below.nodes ++ others.nodes)).Nodup :=
      hsingle.sublist (((List.sublist_cons_self _ _).filter _).map _)
    have hparts := htail
    rw [looseNumbers_append, List.nodup_append] at hparts
    simp only [insert]
    split
    · exact grows_chain l w next (edge k m below others) hbound hsingle
    split
    · -- The edge has the letter: its node is thawed, and what is below it grows.
      cases w with
      | nil => exact (Grows.refl htail _).cons_thaw hbound hsingle true below
      | cons c w =>
        have hle := m.le_thaw next
        have hgrows := ihBelow c w (m.thaw next).2
          (fun n hn => Nat.lt_of_lt_of_le (hbelow n hn) hle) hparts.1
        exact (hgrows.append_right others.nodes
          (fun n hn => Nat.lt_of_lt_of_le (hothers n hn) hle) htail).cons_thaw hbound hsingle
            (m.thaw next).1.terminal _
    · -- The word goes along a later edge, and the first one stands beside.
      refine (ihOthers l w next hothers hparts.2.1).append_left (⟨m, below⟩ :: below.nodes) ?_ hsingle
      intro n hn
      refine hbound n ?_
      rcases List.mem_cons.mp hn with rfl | hn
      · exact List.mem_cons_self ..
      · exact List.mem_cons_of_mem _ (List.mem_append_left _ hn)

end Edges

/-- **Insertion keeps sharing sound**: a node that may be shared is copied before it changes. -/
theorem WordGraph.sharesSoundly_insert {g : WordGraph} (h : SharesSoundly g.nodes g.size) (w : Word) :
    SharesSoundly (g.insert w).1.nodes (g.insert w).1.size := by
  cases w with
  | nil => exact h
  | cons l w =>
    cases hw : g.contains (l :: w) with
    | true =>
      rw [insert_of_not_new (.inr hw)]
      exact h
    | false =>
      rw [insert_of_new hw]
      have hle := g.root.mark.le_thaw g.size
      have hedges : (looseNumbers g.root.edges.nodes).Nodup :=
        h.single.sublist (((List.sublist_cons_self _ _).filter _).map _)
      have hgrows := g.root.edges.grows_insert l w (g.root.mark.thaw g.size).2
        (fun n hn => Nat.lt_of_lt_of_le (h.bounded n (List.mem_cons_of_mem _ hn)) hle) hedges
      exact h.of_grows
        (hgrows.cons_thaw h.bounded h.single (g.root.mark.thaw g.size).1.terminal _)

end WordStudy
