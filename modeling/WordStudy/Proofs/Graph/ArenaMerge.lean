import WordStudy.Proofs.Graph.ArenaInsert

/-!
# Merging the nodes of a table

A table is merged **as the graph that it holds**: a place is visited when the node there is gone
through, and what stands at the new places are the nodes that were kept. The mark of a place that
was not visited is itself a place, but only the last of all, which is left to the root.
-/

namespace WordStudy

/-! ## §1 How many nodes are kept -/

namespace Merging

theorem size_le_keep (s : Merging) (m : Mark) (e : Edges) : s.size ≤ (s.keep m e).2.size := by
  simp only [keep]
  split
  · exact Nat.le_refl _
  · exact Nat.le_succ _

end Merging

/-- Nodes are never given up while others are merged. -/
theorem Edges.size_le_merge (e : Edges) (s : Merging) : s.size ≤ (e.merge s).2.size := by
  induction e generalizing s with
  | nil => exact Nat.le_refl _
  | edge l m below others ihBelow ihOthers =>
    simp only [merge]
    split
    · exact ihOthers s
    · exact Nat.le_trans (ihBelow s) (Nat.le_trans (Merging.size_le_keep _ _ _) (ihOthers _))

namespace WordGraph

/-- **A merged graph has no more nodes than before.** -/
theorem size_merge_le {g : WordGraph} (h : SharesSoundly g.nodes g.size) :
    g.merge.size ≤ g.size := by
  obtain ⟨-, hterminal, hbare⟩ := merge_spec h
  have hexists : ∀ k : Fin g.merge.size, ∃ n ∈ g.merge.nodes, ∃ n' ∈ g.nodes,
      n.mark.number = k ∧ n.mark.terminal = n'.mark.terminal ∧ n.edges.bare = n'.edges.bare := by
    intro ⟨k, hk⟩
    obtain ⟨n, hn, hnumber⟩ := exists_number_merge h hk
    rcases List.mem_cons.mp hn with rfl | hbelow
    · exact ⟨_, hn, g.root, g.root_mem_nodes, hnumber, hterminal, hbare⟩
    · obtain ⟨n', hn', hsame⟩ := Edges.exists_mem_nodes_of_bare_eq hbare hbelow
      exact ⟨n, hn, n', List.mem_cons_of_mem _ hn', hnumber, hsame⟩
  choose node hmem node' hmem' hnumber hsame using hexists
  -- Nodes that were not merged into one were different before.
  let number (k : Fin g.merge.size) : Fin g.size :=
    ⟨(node' k).mark.number, h.bounded _ (hmem' k)⟩
  have hinjective : Function.Injective number := by
    intro k j heq
    have hbefore := h.eq_of_number_eq (hmem' k) (hmem' j) (Fin.mk.inj heq)
    have hone : node k = node j := isMinimal_merge h _ (hmem k) _ (hmem j)
      (by rw [(hsame k).1, (hsame j).1, hbefore]) (by rw [(hsame k).2, (hsame j).2, hbefore])
    rw [Fin.ext_iff, ← hnumber k, ← hnumber j, hone]
  have hcard := Fintype.card_le_of_injective number hinjective
  rwa [Fintype.card_fin, Fintype.card_fin] at hcard

/-- **The root is kept last**, and as a new node: no node below it is the same. -/
theorem size_merge_edges_lt {g : WordGraph} (h : SharesSoundly g.nodes g.size) :
    (g.root.edges.merge Merging.start).2.size < g.merge.size := by
  have hbelow {n : Node} (hn : n ∈ g.root.edges.nodes) : n ∈ g.nodes := List.mem_cons_of_mem _ hn
  obtain ⟨hsound, -, htargets, hbare⟩ := g.root.edges.merge_spec
    (Merging.sound_start g.root.edges.nodes) (fun n hn => hn)
    (fun n hn m hm heq => h.eq_of_number_eq (hbelow hn) (hbelow hm) heq)
  cases hkept : (g.root.edges.merge Merging.start).2.kept[Merging.signature g.root.mark.terminal
      (g.root.edges.merge Merging.start).1]? with
  | none => simp [merge, Merging.keep, hkept]
  | some node =>
    -- A node of the same signature would be as high as the root, which is above it.
    exfalso
    have hsign := hsound.sign_eq _ _ hkept
    have hkeeps : (g.root.edges.merge Merging.start).2.Keeps node := by
      rw [Merging.Keeps, hsign]
      exact hkept
    obtain ⟨-, hedges⟩ := hsound.signature_inj (hsound.targets _ hkeeps) htargets hsign
    obtain ⟨n, hn, -, hsame⟩ := hsound.of_tree _ hkeeps
    have hheight := Edges.height_lt_of_mem_nodes hn
    rw [← Edges.height_bare n.edges, ← hsame, hedges, hbare, Edges.height_bare] at hheight
    exact Nat.lt_irrefl _ hheight

end WordGraph

/-! ## §2 Signatures -/

/-- **Links tell what signatures tell**, as long as 32 bits tell the places apart. -/
theorem links_eq_iff {e e' : Edges} (he : ∀ n ∈ e.targets, n.mark.number < maxCells)
    (he' : ∀ n ∈ e'.targets, n.mark.number < maxCells) :
    e.links = e'.links ↔
      (e.toList.flatMap fun (l, n) => [l.toNat, n.mark.number]) =
        e'.toList.flatMap fun (l, n) => [l.toNat, n.mark.number] := by
  induction e generalizing e' with
  | nil => cases e' <;> simp [Edges.toList]
  | edge l m below others _ ihOthers =>
    cases e' with
    | nil => simp [Edges.toList]
    | edge l' m' below' others' =>
      have hrest := @ihOthers others' (fun n hn => he n (by simp [hn]))
        (fun n hn => he' n (by simp [hn]))
      have hplace : Node.place ⟨m, below⟩ = Node.place ⟨m', below'⟩ ↔ m.number = m'.number := by
        rw [← UInt32.toNat_inj, Node.toNat_place (he _ (by simp)),
          Node.toNat_place (he' _ (by simp))]
      simp [Edges.toList, hplace, hrest, UInt8.toNat_inj, and_assoc]

theorem signature_eq_iff {t t' : Bool} {e e' : Edges}
    (he : ∀ n ∈ e.targets, n.mark.number < maxCells)
    (he' : ∀ n ∈ e'.targets, n.mark.number < maxCells) :
    Merging.signature t e = Merging.signature t' e' ↔ (t, e.links) = (t', e'.links) := by
  rw [Merging.signature, Merging.signature, List.cons.injEq, Prod.mk.injEq, links_eq_iff he he']
  cases t <;> cases t' <;> simp

/-! ## §3 Merging side by side -/

namespace Arena

/-- The new place of a node gone through. -/
def newPlace (s : Merging) (n : Node) : UInt32 :=
  ((s.done[n.mark.number]?).map Node.place).getD unvisited

/-- **What was found in the table so far is what was found in the graph.** -/
structure Merged.Follows (c : Merged) (s : Merging) (tree : List Node) : Prop where
  size : c.cells.size = s.size
  kept : ∀ n, s.Keeps n → c.cells[n.mark.number]? = some n.cell
  known : ∀ (t : Bool) (e : Edges), (∀ n ∈ e.targets, n.mark.number < maxCells) →
    c.known[(t, e.links)]? = (s.kept[Merging.signature t e]?).map Node.place
  moved : ∀ n ∈ tree, c.moved[n.mark.number]? = some (newPlace s n)

/-- Nothing was found yet. -/
theorem follows_start {tree : List Node} {size : Nat} (h : ∀ n ∈ tree, n.mark.number < size) :
    Merged.Follows ⟨Array.replicate size unvisited, ∅, #[]⟩ Merging.start tree where
  size := rfl
  kept n hn := by simp [Merging.Keeps, Merging.start] at hn
  known t e _ := by simp [Merging.start]
  moved n hn := by simp [newPlace, Merging.start, h n hn]

/-- **A node is kept in both.** -/
theorem Merged.Follows.keep {c : Merged} {s : Merging} {tree : List Node} (h : c.Follows s tree)
    (hsound : s.Sound tree) (m : Mark) (e : Edges) (he : ∀ n ∈ e.targets, s.Keeps n)
    (hsmall : (s.keep m e).2.size ≤ maxCells) {place : Nat} (hplace : place = m.number) :
    (c.keep m.terminal e.links).1 = (s.keep m e).1.place ∧
    Merged.Follows { (c.keep m.terminal e.links).2 with
      moved := (c.keep m.terminal e.links).2.moved.setIfInBounds place
        (c.keep m.terminal e.links).1 } (s.keep m e).2 tree := by
  subst hplace
  have hroom : s.size ≤ maxCells := Nat.le_trans (s.size_le_keep m e) hsmall
  have hnumbers : ∀ n ∈ e.targets, n.mark.number < maxCells := fun n hn =>
    Nat.lt_of_lt_of_le (hsound.bounded n (he n hn)) hroom
  have hknown := h.known m.terminal e hnumbers
  -- The new place is noted for the old one, which is in the table.
  have hmoved (new : Node) {n : Node} (hn : n ∈ tree) :
      (c.moved.setIfInBounds m.number new.place)[n.mark.number]? =
        some ((((s.done.insert m.number new)[n.mark.number]?).map Node.place).getD unvisited) := by
    have hbefore := h.moved n hn
    rw [Array.getElem?_setIfInBounds, Std.TreeMap.getElem?_insert]
    by_cases heq : m.number = n.mark.number
    · obtain ⟨hlt, -⟩ := Array.getElem?_eq_some_iff.mp hbefore
      simp [heq, hlt]
    · simpa [heq, newPlace] using hbefore
  cases hkept : s.kept[Merging.signature m.terminal e]? with
  | some node =>
    rw [hkept] at hknown
    simp only [Merged.keep, Merging.keep, hknown, hkept, Option.map_some]
    exact ⟨trivial, h.size, h.kept, h.known, fun n hn => hmoved node hn⟩
  | none =>
    rw [hkept] at hknown
    simp only [Merging.keep, hkept] at hsmall
    let node : Node := ⟨⟨s.size, m.terminal, true⟩, e⟩
    have hnew : s.kept[Merging.signature node.mark.terminal node.edges]? = none := hkept
    simp only [Merged.keep, Merging.keep, hknown, hkept, Option.map_none, h.size]
    refine ⟨rfl, ?_, ?_, ?_, fun n hn => hmoved node hn⟩
    · simp [h.size]
    · intro n hn
      rw [Array.getElem?_push, h.size]
      rcases (Merging.keeps_withKept hnew n).mp hn with rfl | hn
      · exact if_pos rfl
      · rw [if_neg (Nat.ne_of_lt (hsound.bounded n hn))]
        exact h.kept n hn
    · intro t e' he'
      have hsame := @signature_eq_iff m.terminal t e e' hnumbers he'
      rw [Std.HashMap.getElem?_insert, Std.TreeMap.getElem?_insert]
      by_cases heq : (m.terminal, e.links) = (t, e'.links)
      · rw [if_pos (beq_iff_eq.mpr heq), if_pos (Std.compare_eq_iff_eq.mpr (hsame.mpr heq))]
        rfl
      · rw [if_neg (fun hbeq => heq (beq_iff_eq.mp hbeq)),
          if_neg (fun hcompare => heq (hsame.mp (Std.compare_eq_iff_eq.mp hcompare)))]
        exact h.known t e' he'

/-- Only the last of all places has the mark of those that were not visited. -/
theorem place_ne_unvisited {n : Node} (h : n.mark.number + 1 < maxCells) :
    n.place ≠ unvisited := by
  intro heq
  have hnumber := congrArg UInt32.toNat heq
  rw [Node.toNat_place (Nat.lt_of_succ_lt h)] at hnumber
  exact Nat.ne_of_lt h (congrArg (· + 1) hnumber)

section SideBySide

variable {a : Arena} {tree : List Node} (hholds : HoldsNodes a.cells tree)
  (hplaces : ∀ n ∈ tree, n.mark.number < maxCells)
  (hagree : ∀ n ∈ tree, ∀ m ∈ tree, n.mark.number = m.mark.number → n = m)

include hholds hplaces hagree

/-- **A node that was not gone through** is kept in both after what is below it was merged. -/
theorem mergeFrom_place {n : Node} (hn : n ∈ tree) (hbelow : ∀ x ∈ n.edges.nodes, x ∈ tree)
    {s : Merging} (hdone : s.done[n.mark.number]? = none) (hsound : s.Sound tree) {c c₁ : Merged}
    (h : c.Follows s tree) {depth : Nat}
    (hlinks : mergeLinks (a.mergeFrom depth) n.edges.links c =
      some ((n.edges.merge s).1.links, c₁))
    (h₁ : c₁.Follows (n.edges.merge s).2 tree) {node : Node} {s₂ : Merging}
    (hkeep : (n.edges.merge s).2.keep n.mark (n.edges.merge s).1 = (node, s₂))
    (hsmall : s₂.size ≤ maxCells) :
    ∃ c₂, a.mergeFrom (depth + 1) n.place c = some (node.place, c₂) ∧ c₂.Follows s₂ tree ∧
      s₂.Sound tree ∧ s₂.Keeps node := by
  obtain ⟨hsound₁, -, htargets, hbare⟩ := n.edges.merge_spec hsound hbelow hagree
  have hsame : ∀ x ∈ tree, x.mark.number = n.mark.number →
      n.mark.terminal = x.mark.terminal ∧ (n.edges.merge s).1.bare = x.edges.bare := by
    intro x hx heq
    obtain rfl := hagree x hx n hn heq
    exact ⟨rfl, hbare⟩
  have hkept := hsound₁.keep n.mark _ htargets ⟨n, hn, rfl⟩ hsame
  have hfollows := h₁.keep hsound₁ n.mark _ htargets (by rw [hkeep]; exact hsmall)
    (Node.toNat_place (hplaces n hn))
  rw [hkeep] at hkept hfollows
  refine ⟨_, ?_, hfollows.2, hkept.1, hkept.2.2.1⟩
  have hunvisited : c.moved.getD n.place.toNat unvisited = unvisited := by
    rw [Node.toNat_place (hplaces n hn), Array.getD_eq_getD_getElem?, h.moved n hn, newPlace, hdone]
    rfl
  rw [mergeFrom, hunvisited, if_neg (fun hne => hne rfl), cell_place hholds hn (hplaces n hn),
    ← hfollows.1]
  simp only [Node.cell, hlinks]
  rfl

/-- **Links are merged as edges are**, from a depth that is enough for the edges. -/
theorem mergeLinks_links {e : Edges} (he : ∀ n ∈ e.nodes, n ∈ tree) {depth : Nat}
    (hdepth : e.height ≤ depth) {s : Merging} (hsound : s.Sound tree) {c : Merged}
    (h : c.Follows s tree) (hsmall : (e.merge s).2.size < maxCells) :
    ∃ c', mergeLinks (a.mergeFrom depth) e.links c = some ((e.merge s).1.links, c') ∧
      c'.Follows (e.merge s).2 tree := by
  induction e generalizing depth s c with
  | nil => exact ⟨c, rfl, h⟩
  | edge l m below others ihBelow ihOthers =>
    have hnode : (⟨m, below⟩ : Node) ∈ tree := he _ (by simp)
    have hnodes : ∀ n ∈ below.nodes, n ∈ tree := fun n hn => he n (by simp [hn])
    obtain ⟨hlower, hrest⟩ : below.height + 1 ≤ depth ∧ others.height ≤ depth :=
      Nat.max_le.mp hdepth
    obtain ⟨depth, rfl⟩ : ∃ d, depth = d + 1 := ⟨depth - 1, by omega⟩
    -- The node that the first edge leads to, found or kept in both.
    obtain ⟨node, s', c', hmerge, hvisit, hsound', h'⟩ :
        ∃ (node : Node) (s' : Merging) (c' : Merged),
        (Edges.edge l m below others).merge s =
          (.edge l node.mark node.edges (others.merge s').1, (others.merge s').2) ∧
        a.mergeFrom (depth + 1) (Node.place ⟨m, below⟩) c = some (node.place, c') ∧
        s'.Sound tree ∧ c'.Follows s' tree := by
      simp only [Edges.merge] at hsmall ⊢
      cases hdone : s.done[m.number]? with
      | some node =>
        rw [hdone] at hsmall
        dsimp only at hsmall
        have hlt := hsound.bounded node (hsound.done_keeps _ _ hdone)
        have hle := others.size_le_merge s
        have hvisited : c.moved.getD (Node.place ⟨m, below⟩).toNat unvisited = node.place := by
          rw [Node.toNat_place (hplaces _ hnode), Array.getD_eq_getD_getElem?, h.moved _ hnode,
            newPlace, hdone]
          rfl
        refine ⟨node, s, c, rfl, ?_, hsound, h⟩
        rw [mergeFrom, hvisited]
        exact if_pos (place_ne_unvisited (by omega))
      | none =>
        rw [hdone] at hsmall
        dsimp only at hsmall
        have hkeep := Merging.size_le_keep (below.merge s).2 m (below.merge s).1
        have hle := others.size_le_merge ((below.merge s).2.keep m (below.merge s).1).2
        obtain ⟨c₁, hlinks, h₁⟩ :=
          ihBelow hnodes (Nat.le_of_succ_le_succ hlower) hsound h (by omega)
        obtain ⟨c₂, hvisit, h₂, hsound₂, -⟩ := mergeFrom_place hholds hplaces hagree hnode hnodes
          hdone hsound h hlinks h₁ rfl (Nat.le_of_lt (Nat.lt_of_le_of_lt hle hsmall))
        exact ⟨_, _, c₂, rfl, hvisit, hsound₂, h₂⟩
    rw [hmerge] at hsmall ⊢
    obtain ⟨c'', hlinks, h''⟩ := ihOthers (fun n hn => he n (by simp [hn])) hrest hsound' h' hsmall
    refine ⟨c'', ?_, h''⟩
    rw [Edges.links_edge, mergeLinks, hvisit]
    simp [hlinks]

end SideBySide

/-- **Merging a table comes to an end**, and the table then holds the merged graph. -/
theorem Holds.merge {a : Arena} {g : WordGraph} (h : a.Holds g) (hsound : g.IsSound) :
    ∃ a', a.merge = some a' ∧ a'.Holds g.merge := by
  have hshares := hsound.sharesSoundly
  have hagree : ∀ n ∈ g.nodes, ∀ m ∈ g.nodes, n.mark.number = m.mark.number → n = m :=
    fun n hn m hm heq => hshares.eq_of_number_eq hn hm heq
  have hplaces : ∀ n ∈ g.nodes, n.mark.number < maxCells := fun n hn => h.number_lt hshares hn
  have hedges : ∀ n ∈ g.root.edges.nodes, n ∈ g.nodes := fun n hn => List.mem_cons_of_mem _ hn
  have hroom : g.merge.size ≤ maxCells := Nat.le_trans (WordGraph.size_merge_le hshares) h.small
  have hheight := WordGraph.height_lt_size hshares
  obtain ⟨depth, hdepth⟩ : ∃ depth, g.size = depth + 1 := ⟨g.size - 1, by omega⟩
  have henough : g.root.edges.height ≤ depth := by omega
  have hstart := follows_start hshares.bounded
  have hsoundStart := Merging.sound_start g.nodes
  -- The edges of the root are merged first, and the root is kept after them.
  obtain ⟨c₁, hlinks, h₁⟩ := mergeLinks_links h.nodes hplaces hagree hedges henough hsoundStart
    hstart (Nat.lt_of_lt_of_le (WordGraph.size_merge_edges_lt hshares) hroom)
  obtain ⟨c₂, hvisit, h₂, hsound₂, hroot⟩ := mergeFrom_place h.nodes hplaces hagree
    g.root_mem_nodes hedges (by simp [Merging.start]) hsoundStart hstart hlinks h₁ rfl hroom
  have hmerge : a.merge = some ⟨c₂.cells, g.merge.root.place, a.wordCount⟩ := by
    rw [← hdepth] at hvisit
    simp only [Arena.merge, h.root, h.size, hvisit]
    rfl
  exact ⟨_, hmerge, fun n hn => h₂.kept n (hsound₂.keeps_of_mem_nodes hroot n hn), rfl, h₂.size,
    h.wordCount, hroom⟩

end Arena

end WordStudy
