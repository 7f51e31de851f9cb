import WordStudy.Proofs.Graph.Order
import WordStudy.Proofs.Graph.Table

/-!
# Tables unfolded

A table **unfolds** from a run to the tree of edges that one sees by following its entries. Which
marks the nodes of the tree have is left to a relation, so that one table may be the unfolding of
a graph before it is written and of the graph that is read. A table that unfolds from a run is in
order from there on and spells the words of the tree.
-/

namespace WordStudy

namespace Image

/-! ## §1 Unfolding -/

/-- **From a run, the table unfolds to the edges.** `named run terminal m` says that `m` is a mark
of the node with the run at which a word ends or not. -/
inductive Unfolds (table : Array Nat) (named : Nat → Bool → Mark → Prop) : Nat → Edges → Prop
  | none : Unfolds table named 0 .nil
  | last {place entry : Nat} {m : Mark} {below : Edges} (hplace : place ≠ 0)
    (hentry : table[place]? = some entry) (hupper : isUpper (letterOf entry) = true)
    (hlast : isLast entry = true) (hmark : named (runOf entry) (isTerminal entry) m)
    (hbelow : Unfolds table named (runOf entry) below) :
    Unfolds table named place (.edge (letterOf entry) m below .nil)
  | more {place entry next : Nat} {m : Mark} {below others : Edges} (hplace : place ≠ 0)
    (hentry : table[place]? = some entry) (hupper : isUpper (letterOf entry) = true)
    (hlast : isLast entry = false) (hnext : table[place + 1]? = some next)
    (hletter : letterOf entry < letterOf next)
    (hmark : named (runOf entry) (isTerminal entry) m)
    (hbelow : Unfolds table named (runOf entry) below)
    (hothers : Unfolds table named (place + 1) others) :
    Unfolds table named place (.edge (letterOf entry) m below others)

namespace Unfolds

variable {table : Array Nat} {named named' : Nat → Bool → Mark → Prop} {run : Nat} {e e' : Edges}

/-- With more marks, the table unfolds to the same edges. -/
theorem mono (h : Unfolds table named run e)
    (hnamed : ∀ run terminal m, named run terminal m → named' run terminal m) :
    Unfolds table named' run e := by
  induction h with
  | none => exact .none
  | last hplace hentry hupper hlast hmark _ ih =>
    exact .last hplace hentry hupper hlast (hnamed _ _ _ hmark) ih
  | more hplace hentry hupper hlast hnext hletter hmark _ _ ihBelow ihOthers =>
    exact .more hplace hentry hupper hlast hnext hletter (hnamed _ _ _ hmark) ihBelow ihOthers

/-- Only run 0 has no edges. -/
theorem eq_nil_iff (h : Unfolds table named run e) : e = .nil ↔ run = 0 := by
  cases h with
  | none => simp
  | last hplace => simp [hplace]
  | more hplace => simp [hplace]

/-! ## §2 Order -/

/-- **A run that unfolds is proper.** -/
theorem isProper (h : Unfolds table named run e) (hrun : run ≠ 0) : IsProper table run := by
  induction h with
  | none => exact absurd rfl hrun
  | last _ hentry hupper hlast => exact .last hentry hupper hlast
  | more _ hentry hupper hlast hnext hletter _ _ _ _ ihOthers =>
    exact .more hentry hupper hlast hnext hletter (ihOthers (Nat.succ_ne_zero _))

/-- The run that an edge leads to unfolds as well. -/
theorem of_leads (h : Unfolds table named run e) {target : Nat} (hleads : Leads table run target) :
    ∃ below, Unfolds table named target below := by
  obtain ⟨entry, ⟨hrun, hentry⟩, rfl⟩ := hleads
  induction h with
  | none => exact absurd rfl hrun
  | last hplace hfirst _ hlast _ hbelow =>
    obtain rfl := (inRun_of_last hfirst hlast).mp hentry
    exact ⟨_, hbelow⟩
  | more hplace hfirst _ hlast _ _ _ hbelow _ _ ihOthers =>
    rcases (inRun_of_more hfirst hlast).mp hentry with rfl | hentry
    · exact ⟨_, hbelow⟩
    · exact ihOthers (Nat.succ_ne_zero _) hentry

theorem of_reaches (h : Unfolds table named run e) {target : Nat}
    (hreaches : Reaches table run target) : ∃ below, Unfolds table named target below := by
  induction hreaches with
  | refl => exact ⟨e, h⟩
  | tail _ hleads ih =>
    obtain ⟨below, hbelow⟩ := ih
    exact hbelow.of_leads hleads

/-- **Runs that unfold are followed for finitely many steps only.** -/
theorem acc (h : Unfolds table named run e) :
    Acc (fun target run => Leads table run target) run := by
  induction h with
  | none => exact .intro _ fun target ⟨entry, hedge, _⟩ => absurd hedge (not_isEdge_zero entry)
  | last hplace hfirst _ hlast _ _ ih =>
    -- The one entry of the run leads below it.
    refine .intro _ ?_
    rintro _ ⟨entry, ⟨-, hentry⟩, rfl⟩
    obtain rfl := (inRun_of_last hfirst hlast).mp hentry
    exact ih
  | more hplace hfirst _ hlast _ _ _ _ _ ihBelow ihOthers =>
    refine .intro _ ?_
    rintro _ ⟨entry, ⟨-, hentry⟩, rfl⟩
    rcases (inRun_of_more hfirst hlast).mp hentry with rfl | hentry
    · exact ihBelow
    · -- An edge of the entries behind the first is one of a run of its own.
      exact ihOthers.inv ⟨entry, ⟨Nat.succ_ne_zero _, hentry⟩, rfl⟩

/-- **What unfolds is well formed.** -/
theorem isWellFormed (h : Unfolds table named run e) : IsWellFormed table run where
  proper r hr hzero := by
    obtain ⟨below, hbelow⟩ := h.of_reaches hr
    exact hbelow.isProper hzero
  acyclic r hr hcycle := by
    obtain ⟨below, hbelow⟩ := h.of_reaches hr
    -- A cycle through a run could be followed without end.
    have hacc := hbelow.acc.transGen
    have hback := Relation.transGen_swap.mpr hcycle
    clear hr hcycle hbelow
    induction hacc with
    | intro x _ ih => exact ih x hback hback

/-! ## §3 Words -/

/-- **What unfolds spells the words of the tree**, if marks say where words end. -/
theorem mem_words_iff (h : Unfolds table named run e)
    (hnamed : ∀ run terminal m, named run terminal m → m.terminal = terminal) (w : Word) :
    w ∈ e.words ↔ Spells table run w := by
  induction h generalizing w with
  | none =>
    rw [spells_iff]
    simp [Edges.words, not_isEdge_zero]
  | last hplace hfirst _ hlast hmark _ ih =>
    rw [Edges.mem_words_edge, spells_iff, hnamed _ _ _ hmark]
    simp [IsEdge, hplace, inRun_of_last hfirst hlast, ih, Edges.words]
  | more hplace hfirst _ hlast _ _ hmark _ _ ihBelow ihOthers =>
    rw [Edges.mem_words_edge, spells_iff, hnamed _ _ _ hmark, ihOthers, spells_iff]
    simp only [IsEdge, ne_eq, hplace, not_false_eq_true, true_and, Nat.succ_ne_zero,
      inRun_of_more hfirst hlast, or_and_right, exists_or, exists_eq_left, ihBelow, or_assoc]

end Unfolds

end Image

end WordStudy
