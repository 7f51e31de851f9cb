import WordStudy.Graph.Merge
import WordStudy.Proofs.Graph.Sharing

/-!
# Merging changes no word

While nodes are merged, two nodes kept have different signatures and different numbers, so that a
signature tells the node it stands for. A node whose signature was seen is therefore the same as
the one kept, apart from its number, and the merged graph is the **same tree** when numbers and
frozen marks are left out. It spells the same words, and its sharing is sound again.
-/

namespace WordStudy

/-! ## §1 The tree without numbers -/

/-- The edges without the numbers and the frozen marks of their nodes. -/
def Edges.bare : Edges → Edges
  | nil => nil
  | edge l m below others => edge l ⟨0, m.terminal, false⟩ below.bare others.bare

/-- The words depend on the tree without numbers only. -/
@[simp] theorem Edges.words_bare (e : Edges) : e.bare.words = e.words := by
  induction e with
  | nil => rfl
  | edge l m below others ihBelow ihOthers => simp only [bare, words, ihBelow, ihOthers]

@[simp] theorem Edges.letters_bare (e : Edges) : e.bare.letters = e.letters := by
  induction e with
  | nil => rfl
  | edge l m below others _ ihOthers => simp only [bare, letters_edge, ihOthers]

@[simp] theorem Edges.sorted_bare (e : Edges) : e.bare.Sorted ↔ e.Sorted := by
  induction e with
  | nil => rfl
  | edge l m below others ihBelow ihOthers =>
    simp only [bare, Sorted, ihBelow, ihOthers, letters_bare]

/-! ## §2 What holds while nodes are merged -/

namespace Merging

/-- The node was kept. -/
def Keeps (s : Merging) (n : Node) : Prop :=
  s.kept[signature n.mark.terminal n.edges]? = some n

/-- **What holds while the nodes of `tree` are merged.** -/
structure Sound (s : Merging) (tree : List Node) : Prop where
  /-- A node is kept under its own signature. -/
  sign_eq : ∀ (sign : List Nat) (n : Node), s.kept[sign]? = some n → signature n.mark.terminal n.edges = sign
  frozen : ∀ n, s.Keeps n → n.mark.frozen = true
  bounded : ∀ n, s.Keeps n → n.mark.number < s.size
  /-- The edges of a kept node lead to kept nodes. -/
  targets : ∀ n, s.Keeps n → ∀ c ∈ n.edges.targets, s.Keeps c
  eq_of_number_eq : ∀ n m, s.Keeps n → s.Keeps m → n.mark.number = m.mark.number → n = m
  done_keeps : ∀ (k : Nat) (n : Node), s.done[k]? = some n → s.Keeps n
  /-- A node gone through became one that is the same but for numbers. -/
  done_same : ∀ n ∈ tree, ∀ n', s.done[n.mark.number]? = some n' →
    n'.mark.terminal = n.mark.terminal ∧ n'.edges.bare = n.edges.bare
  /-- Every number below the size is that of a kept node. -/
  filled : ∀ k < s.size, ∃ n, s.Keeps n ∧ n.mark.number = k
  /-- A kept node is the same as one of the tree but for numbers. -/
  of_tree : ∀ n, s.Keeps n → ∃ n' ∈ tree,
    n.mark.terminal = n'.mark.terminal ∧ n.edges.bare = n'.edges.bare

theorem sound_start (tree : List Node) : start.Sound tree := by
  constructor <;> simp [start, Keeps]

/-- Helper: equal letters and numbers make equal edges, if the edges lead to kept nodes. -/
private theorem edges_eq_of_flatMap_eq {s : Merging} {tree : List Node} (h : s.Sound tree)
    {e e' : Edges} (he : ∀ c ∈ e.targets, s.Keeps c) (he' : ∀ c ∈ e'.targets, s.Keeps c)
    (heq : (e.toList.flatMap fun (l, node) => [l.toNat, node.mark.number]) =
      e'.toList.flatMap fun (l, node) => [l.toNat, node.mark.number]) : e = e' := by
  -- Edge by edge: the letters are the same, and so are the numbers and with them the nodes.
  induction e generalizing e' with
  | nil =>
    cases e' with
    | nil => rfl
    | edge l m below others => simp [Edges.toList] at heq
  | edge l m below others _ ihOthers =>
    cases e' with
    | nil => simp [Edges.toList] at heq
    | edge l' m' below' others' =>
      simp only [Edges.toList, List.flatMap_cons, List.cons_append, List.nil_append,
        List.cons.injEq] at heq
      obtain ⟨hletter, hnumber, hrest⟩ := heq
      have hnode : (⟨m, below⟩ : Node) = ⟨m', below'⟩ :=
        h.eq_of_number_eq _ _ (he _ (by simp)) (he' _ (by simp)) hnumber
      have hothers : others = others' :=
        ihOthers (fun c hc => he c (by simp [hc])) (fun c hc => he' c (by simp [hc])) hrest
      cases hnode
      rw [UInt8.toNat_inj.mp hletter, hothers]

/-- **A signature tells the node** whose edges lead to kept nodes. -/
theorem Sound.signature_inj {s : Merging} {tree : List Node} (h : s.Sound tree)
    {t t' : Bool} {e e' : Edges} (he : ∀ c ∈ e.targets, s.Keeps c)
    (he' : ∀ c ∈ e'.targets, s.Keeps c) (heq : signature t e = signature t' e') :
    t = t' ∧ e = e' := by
  simp only [signature, List.cons.injEq] at heq
  refine ⟨?_, edges_eq_of_flatMap_eq h he he' heq.2⟩
  cases t <;> cases t' <;> simp at heq ⊢

/-- A node gone through is the one kept for it. -/
theorem Sound.insert_done {s : Merging} {tree : List Node} (h : s.Sound tree) {node : Node}
    (hnode : s.Keeps node) (k : Nat)
    (hsame : ∀ n ∈ tree, n.mark.number = k →
      node.mark.terminal = n.mark.terminal ∧ node.edges.bare = n.edges.bare) :
    Sound { s with done := s.done.insert k node } tree where
  sign_eq := h.sign_eq
  frozen := h.frozen
  bounded := h.bounded
  targets := h.targets
  eq_of_number_eq := h.eq_of_number_eq
  done_keeps j n hj := by
    rw [Std.TreeMap.getElem?_insert] at hj
    split at hj
    · cases hj
      exact hnode
    · exact h.done_keeps j n hj
  done_same n hn n' hn' := by
    rw [Std.TreeMap.getElem?_insert] at hn'
    split at hn'
    · next hnumber =>
      cases hn'
      exact hsame n hn (Std.compare_eq_iff_eq.mp hnumber).symm
    · exact h.done_same n hn n' hn'
  filled := h.filled
  of_tree := h.of_tree

/-- The state in which one more node is kept. -/
def withKept (s : Merging) (node : Node) : Merging :=
  ⟨s.done, s.kept.insert (signature node.mark.terminal node.edges) node, s.size + 1⟩

/-- A new signature is kept beside the old ones. -/
theorem keeps_withKept {s : Merging} {node : Node}
    (hnew : s.kept[signature node.mark.terminal node.edges]? = none) (n : Node) :
    (s.withKept node).Keeps n ↔ n = node ∨ s.Keeps n := by
  simp only [Keeps, withKept, Std.TreeMap.getElem?_insert]
  split
  · next heq =>
    rw [← Std.compare_eq_iff_eq.mp heq, hnew]
    simp [eq_comm]
  · next hne =>
    have hself : n ≠ node := by
      rintro rfl
      simp at hne
    simp [hself]

/-- **A node with a new signature and the next number is kept.** -/
theorem Sound.withKept {s : Merging} {tree : List Node} (h : s.Sound tree) {node : Node}
    (hnew : s.kept[signature node.mark.terminal node.edges]? = none)
    (hnumber : node.mark.number = s.size) (hfrozen : node.mark.frozen = true)
    (hedges : ∀ c ∈ node.edges.targets, s.Keeps c)
    (htree : ∃ n ∈ tree, node.mark.terminal = n.mark.terminal ∧ node.edges.bare = n.edges.bare) :
    (s.withKept node).Sound tree where
  sign_eq sign n hn := by
    simp only [Merging.withKept, Std.TreeMap.getElem?_insert] at hn
    split at hn
    · next heq =>
      cases hn
      exact Std.compare_eq_iff_eq.mp heq
    · exact h.sign_eq sign n hn
  frozen n hn := by
    rcases (keeps_withKept hnew n).mp hn with rfl | hn
    · exact hfrozen
    · exact h.frozen n hn
  bounded n hn := by
    rcases (keeps_withKept hnew n).mp hn with rfl | hn
    · exact hnumber ▸ Nat.lt_succ_self s.size
    · exact Nat.lt_succ_of_lt (h.bounded n hn)
  targets n hn c hc := by
    refine (keeps_withKept hnew c).mpr (.inr ?_)
    rcases (keeps_withKept hnew n).mp hn with rfl | hn
    · exact hedges c hc
    · exact h.targets n hn c hc
  eq_of_number_eq n m hn hm heq := by
    -- The number `s.size` is on no node that was kept before.
    have hfresh : ∀ c, s.Keeps c → c.mark.number ≠ s.size := fun c hc =>
      Nat.ne_of_lt (h.bounded c hc)
    rcases (keeps_withKept hnew n).mp hn with rfl | hn' <;>
      rcases (keeps_withKept hnew m).mp hm with rfl | hm'
    · rfl
    · exact absurd (heq.symm.trans hnumber) (hfresh m hm')
    · exact absurd (heq.trans hnumber) (hfresh n hn')
    · exact h.eq_of_number_eq n m hn' hm' heq
  done_keeps k n hk := (keeps_withKept hnew n).mpr (.inr (h.done_keeps k n hk))
  done_same := h.done_same
  filled k hk := by
    rcases Nat.lt_succ_iff_lt_or_eq.mp hk with hk | rfl
    · obtain ⟨n, hn, hk⟩ := h.filled k hk
      exact ⟨n, (keeps_withKept hnew n).mpr (.inr hn), hk⟩
    · exact ⟨node, (keeps_withKept hnew node).mpr (.inl rfl), hnumber⟩
  of_tree n hn := by
    rcases (keeps_withKept hnew n).mp hn with rfl | hn
    · exact htree
    · exact h.of_tree n hn

/-! ## §3 Merging along the edges -/

/-- **Keeping a node** whose edges lead to kept nodes: the answer has the same edges. -/
theorem Sound.keep {s : Merging} {tree : List Node} (h : s.Sound tree) (m : Mark) (edges : Edges)
    (hedges : ∀ c ∈ edges.targets, s.Keeps c) (hmem : ∃ n ∈ tree, n.mark.number = m.number)
    (hsame : ∀ n ∈ tree, n.mark.number = m.number →
      m.terminal = n.mark.terminal ∧ edges.bare = n.edges.bare) :
    (s.keep m edges).2.Sound tree ∧ (∀ n, s.Keeps n → (s.keep m edges).2.Keeps n) ∧
      (s.keep m edges).2.Keeps (s.keep m edges).1 ∧
        (s.keep m edges).1.mark.terminal = m.terminal ∧ (s.keep m edges).1.edges = edges := by
  unfold Merging.keep
  simp only
  split
  · next node hnode =>
    -- The signature was seen, and it tells that the node kept has these edges.
    have hsign := h.sign_eq _ _ hnode
    have hkeeps : s.Keeps node := by
      unfold Keeps
      rw [hsign]
      exact hnode
    obtain ⟨hterminal, heq⟩ := h.signature_inj (h.targets node hkeeps) hedges hsign
    rw [← hterminal, ← heq] at hsame
    exact ⟨h.insert_done hkeeps m.number hsame, fun _ hn => hn, hkeeps, hterminal, heq⟩
  · next hnone =>
    -- The signature is new: a node of the next number is kept under it.
    let node : Node := ⟨⟨s.size, m.terminal, true⟩, edges⟩
    have hnew : s.kept[signature node.mark.terminal node.edges]? = none := hnone
    have hself : (s.withKept node).Keeps node := (keeps_withKept hnew node).mpr (.inl rfl)
    have htree : ∃ n ∈ tree,
        node.mark.terminal = n.mark.terminal ∧ node.edges.bare = n.edges.bare := by
      obtain ⟨n, hn, hnumber⟩ := hmem
      exact ⟨n, hn, hsame n hn hnumber⟩
    have hsound := (h.withKept hnew rfl rfl hedges htree).insert_done hself m.number hsame
    exact ⟨hsound, fun n hn => (keeps_withKept hnew n).mpr (.inr hn), hself, rfl, rfl⟩

end Merging

/-- **Merging gives the same tree** but for numbers, made of kept nodes. -/
theorem Edges.merge_spec (e : Edges) {tree : List Node} {s : Merging} (h : s.Sound tree)
    (he : ∀ n ∈ e.nodes, n ∈ tree)
    (hagree : ∀ n ∈ tree, ∀ n' ∈ tree, n.mark.number = n'.mark.number → n = n') :
    (e.merge s).2.Sound tree ∧ (∀ n, s.Keeps n → (e.merge s).2.Keeps n) ∧
      (∀ c ∈ (e.merge s).1.targets, (e.merge s).2.Keeps c) ∧ (e.merge s).1.bare = e.bare := by
  induction e generalizing s with
  | nil => exact ⟨h, fun _ hn => hn, by simp [merge], rfl⟩
  | edge l m below others ihBelow ihOthers =>
    have hnode : (⟨m, below⟩ : Node) ∈ tree := he _ (by simp)
    -- The node that the first edge leads to, found among those done or kept now.
    have hfirst : ∃ node s', (edge l m below others).merge s =
          (.edge l node.mark node.edges (others.merge s').1, (others.merge s').2) ∧
        s'.Sound tree ∧ (∀ n, s.Keeps n → s'.Keeps n) ∧ s'.Keeps node ∧
        node.mark.terminal = m.terminal ∧ node.edges.bare = below.bare := by
      simp only [merge]
      split
      · next node hdone =>
        -- A node of this number was gone through, and it is this node.
        have hsame := h.done_same _ hnode _ hdone
        exact ⟨node, s, rfl, h, fun _ hn => hn, h.done_keeps _ _ hdone, hsame.1, hsame.2⟩
      · obtain ⟨hsound, hkeeps, htargets, hbare⟩ := ihBelow h (fun n hn => he n (by simp [hn]))
        have hsame : ∀ n ∈ tree, n.mark.number = m.number →
            m.terminal = n.mark.terminal ∧ (below.merge s).1.bare = n.edges.bare := by
          intro n hn heq
          -- All nodes of the tree with this number are the one at hand.
          have hself := hagree n hn _ hnode heq
          subst hself
          exact ⟨rfl, hbare⟩
        obtain ⟨hsound', hkeeps', hself, hterminal, hedges⟩ :=
          hsound.keep m _ htargets ⟨_, hnode, rfl⟩ hsame
        exact ⟨_, _, rfl, hsound', fun n hn => hkeeps' n (hkeeps n hn), hself, hterminal,
          by rw [hedges, hbare]⟩
    obtain ⟨node, s', heq, hsound, hkeeps, hself, hterminal, hbare⟩ := hfirst
    obtain ⟨hsound', hkeeps', htargets, hbare'⟩ :=
      ihOthers hsound (fun n hn => he n (by simp [hn]))
    rw [heq]
    refine ⟨hsound', fun n hn => hkeeps' n (hkeeps n hn), ?_, ?_⟩
    · intro c hc
      rcases List.mem_cons.mp hc with rfl | hc
      · exact hkeeps' _ hself
      · exact htargets c hc
    · simp only [bare, hterminal, hbare, hbare']

/-! ## §4 The merged graph -/

namespace WordGraph

/-- **The merged graph is made of kept nodes**, and it is the same tree but for numbers. -/
theorem exists_merging {g : WordGraph} (h : SharesSoundly g.nodes g.size) :
    ∃ s : Merging, s.Sound g.nodes ∧ s.Keeps g.merge.root ∧ s.size = g.merge.size ∧
      g.merge.root.mark.terminal = g.root.mark.terminal ∧
        g.merge.root.edges.bare = g.root.edges.bare := by
  have hagree : ∀ n ∈ g.nodes, ∀ n' ∈ g.nodes, n.mark.number = n'.mark.number → n = n' :=
    fun n hn n' hn' heq => h.eq_of_number_eq hn hn' heq
  obtain ⟨hsound, _, htargets, hbare⟩ := g.root.edges.merge_spec (Merging.sound_start g.nodes)
    (fun n hn => List.mem_cons_of_mem _ hn) hagree
  have hsame : ∀ n ∈ g.nodes, n.mark.number = g.root.mark.number →
      g.root.mark.terminal = n.mark.terminal ∧
        (g.root.edges.merge Merging.start).1.bare = n.edges.bare := by
    intro n hn heq
    have hroot := hagree n hn g.root (List.mem_cons_self ..) heq
    subst hroot
    exact ⟨rfl, hbare⟩
  obtain ⟨hsound', _, hself, hterminal, hedges⟩ := hsound.keep g.root.mark _ htargets
    ⟨g.root, List.mem_cons_self .., rfl⟩ hsame
  exact ⟨_, hsound', hself, rfl, hterminal, by rw [← hbare]; exact congrArg Edges.bare hedges⟩

/-- **Merging a graph** gives the same tree but for numbers, with sound sharing. -/
theorem merge_spec {g : WordGraph} (h : SharesSoundly g.nodes g.size) :
    SharesSoundly g.merge.nodes g.merge.size ∧
      g.merge.root.mark.terminal = g.root.mark.terminal ∧
        g.merge.root.edges.bare = g.root.edges.bare := by
  obtain ⟨s, hsound, hroot, hsize, hsame⟩ := exists_merging h
  refine ⟨?_, hsame⟩
  rw [← hsize]
  exact SharesSoundly.of_frozen hsound.targets hsound.frozen hsound.bounded
    hsound.eq_of_number_eq hroot

theorem sharesSoundly_merge {g : WordGraph} (h : SharesSoundly g.nodes g.size) :
    SharesSoundly g.merge.nodes g.merge.size := (merge_spec h).1

/-- **Merging changes no word.** -/
theorem words_merge {g : WordGraph} (h : SharesSoundly g.nodes g.size) :
    g.merge.words = g.words := by
  rw [words, words, ← Edges.words_bare, (merge_spec h).2.2, Edges.words_bare]

theorem sorted_merge {g : WordGraph} (h : SharesSoundly g.nodes g.size)
    (hsorted : g.root.edges.Sorted) : g.merge.root.edges.Sorted := by
  rw [← Edges.sorted_bare, (merge_spec h).2.2, Edges.sorted_bare]
  exact hsorted

@[simp] theorem wordCount_merge (g : WordGraph) : g.merge.wordCount = g.wordCount := rfl

end WordGraph

end WordStudy
