import WordStudy.Proofs.Graph.RoundTrip
import WordStudy.Proofs.Graph.Vocabulary

/-!
# One image for one set of words

A graph that is sorted and has no dead ends is determined by its words, but for the numbers of its
nodes: its edges are the first letters of the words, and what is behind an edge are the words that
go on. Merging makes one node of all that are equal in this sense. So two merged graphs of the same
words have the **same shape**, they are laid out alike, and their images are the same bytes,
whatever was done to the graphs before.
-/

namespace WordStudy

/-! ## §1 A tree from its words -/

namespace Edges

/-- The words that begin with the letter of the first edge go on behind it. -/
theorem Sorted.cons_mem_words_iff {l : UInt8} {m : Mark} {below others : Edges}
    (h : (edge l m below others).Sorted) (w : Word) :
    l :: w ∈ (edge l m below others).words ↔ (m.terminal = true ∧ w = []) ∨ w ∈ below.words := by
  rw [mem_words_edge]
  simp [h.cons_notMem_others w]

/-- The words along the later edges begin with another letter than that of the first edge. -/
theorem Sorted.mem_words_others_iff {l : UInt8} {m : Mark} {below others : Edges}
    (h : (edge l m below others).Sorted) (w : Word) :
    w ∈ others.words ↔ w ∈ (edge l m below others).words ∧ ∀ v, w ≠ l :: v := by
  constructor
  · intro hw
    refine ⟨mem_words_edge.mpr (.inr (.inr hw)), ?_⟩
    rintro v rfl
    exact h.cons_notMem_others v hw
  · rintro ⟨hw, hother⟩
    -- The word is the first letter alone, goes on below it, or is of another edge.
    rcases mem_words_edge.mp hw with ⟨-, rfl⟩ | ⟨v, -, rfl⟩ | hw
    · exact absurd rfl (hother [])
    · exact absurd rfl (hother v)
    · exact hw

/-- No word begins with a smaller letter than that of the first edge. -/
theorem Sorted.le_of_cons_mem_words {l k : UInt8} {m : Mark} {below others : Edges}
    (h : (edge l m below others).Sorted) {w : Word}
    (hw : k :: w ∈ (edge l m below others).words) : l ≤ k := by
  obtain ⟨k', hk', v, heq⟩ := exists_letter_of_mem_words hw
  cases heq
  rcases List.mem_cons.mp hk' with rfl | hk'
  · exact UInt8.le_refl k
  · exact UInt8.le_of_lt (h.2.1 k hk')

/-- **Sorted edges without dead ends are determined by their words**, but for numbers. -/
theorem bare_eq_of_mem_words_iff {e e' : Edges} (hsorted : e.Sorted) (hsorted' : e'.Sorted)
    (hlive : e.Live) (hlive' : e'.Live) (hwords : ∀ w, w ∈ e.words ↔ w ∈ e'.words) :
    e.bare = e'.bare := by
  induction e generalizing e' with
  | nil =>
    -- Any edge would lead to a word.
    cases e' with
    | nil => rfl
    | edge l m below others =>
      obtain ⟨w, hw⟩ := hlive'.exists_cons
      exact absurd ((hwords _).mpr hw) List.not_mem_nil
  | edge l m below others ihBelow ihOthers =>
    cases e' with
    | nil =>
      obtain ⟨w, hw⟩ := hlive.exists_cons
      exact absurd ((hwords _).mp hw) List.not_mem_nil
    | edge l' m' below' others' =>
      -- The first letters are the least ones with which a word begins.
      have hletter : l = l' := by
        obtain ⟨w, hw⟩ := hlive.exists_cons
        obtain ⟨w', hw'⟩ := hlive'.exists_cons
        apply UInt8.le_antisymm
        · exact hsorted.le_of_cons_mem_words ((hwords _).mpr hw')
        · exact hsorted'.le_of_cons_mem_words ((hwords _).mp hw)
      subst hletter
      have hbehind : ∀ w, (m.terminal = true ∧ w = []) ∨ w ∈ below.words ↔
          (m'.terminal = true ∧ w = []) ∨ w ∈ below'.words := by
        intro w
        rw [← hsorted.cons_mem_words_iff, ← hsorted'.cons_mem_words_iff]
        exact hwords (l :: w)
      have hterminal : m.terminal = m'.terminal := by
        rw [Bool.eq_iff_iff]
        simpa [nil_notMem_words] using hbehind []
      have hbelow : below.bare = below'.bare := by
        apply ihBelow hsorted.1 hsorted'.1 hlive.2.1 hlive'.2.1
        intro w
        cases w with
        | nil => exact iff_of_false (nil_notMem_words _) (nil_notMem_words _)
        | cons k w => simpa using hbehind (k :: w)
      have hothers : others.bare = others'.bare := by
        apply ihOthers hsorted.2.2 hsorted'.2.2 hlive.2.2 hlive'.2.2
        intro w
        rw [hsorted.mem_words_others_iff, hsorted'.mem_words_others_iff, hwords w]
      rw [bare, bare, hterminal, hbelow, hothers]

end Edges

/-! ## §2 Merged graphs -/

/-- Helper: edges to kept nodes are determined by the tree without numbers. -/
private theorem edges_eq_of_bare_eq {s : Merging} {tree : List Node} (h : s.Sound tree)
    {e e' : Edges} (he : ∀ c ∈ e.targets, s.Keeps c) (he' : ∀ c ∈ e'.targets, s.Keeps c)
    (hbare : e.bare = e'.bare) : e = e' := by
  induction e generalizing e' with
  | nil => exact (Edges.bare_eq_nil_iff.mp hbare.symm).symm
  | edge l m below others ihBelow ihOthers =>
    cases e' with
    | nil => cases hbare
    | edge l' m' below' others' =>
      simp only [Edges.bare, Edges.edge.injEq, Mark.mk.injEq, true_and, and_true] at hbare
      obtain ⟨rfl, hterminal, hbelow, hothers⟩ := hbare
      have hnode := he ⟨m, below⟩ (by simp)
      have hnode' := he' ⟨m', below'⟩ (by simp)
      -- The nodes behind are the same from the leaves on, so they have one signature.
      have hedges : below = below' := ihBelow (h.targets _ hnode) (h.targets _ hnode') hbelow
      have hmark : m = m' := by
        unfold Merging.Keeps at hnode hnode'
        simp only at hnode hnode'
        rw [hterminal, hedges, hnode'] at hnode
        exact congrArg Node.mark (Option.some.inj hnode).symm
      rw [hmark, hedges, ihOthers (fun c hc => he c (by simp [hc]))
        (fun c hc => he' c (by simp [hc])) hothers]

/-- A graph with a kept root is made of kept nodes. -/
theorem Merging.Sound.keeps_of_mem_nodes {s : Merging} {tree : List Node} (h : s.Sound tree)
    {g : WordGraph} (hroot : s.Keeps g.root) : ∀ n ∈ g.nodes, s.Keeps n := by
  intro n hn
  rcases List.mem_cons.mp hn with rfl | hn
  · exact hroot
  · exact Edges.forall_mem_nodes h.targets (h.targets _ hroot) n hn

/-- **Kept nodes that are equal but for numbers are one node.** -/
theorem Merging.Sound.eq_of_bare_eq {s : Merging} {tree : List Node} (h : s.Sound tree)
    {n n' : Node} (hn : s.Keeps n) (hn' : s.Keeps n')
    (hterminal : n.mark.terminal = n'.mark.terminal) (hbare : n.edges.bare = n'.edges.bare) :
    n = n' := by
  have hedges : n.edges = n'.edges := edges_eq_of_bare_eq h (h.targets n hn) (h.targets n' hn') hbare
  unfold Keeps at hn hn'
  rw [hterminal, hedges, hn'] at hn
  exact (Option.some.inj hn).symm

namespace WordGraph

/-- **Nodes that are equal but for numbers are one node.** -/
def IsMinimal (g : WordGraph) : Prop :=
  ∀ n ∈ g.nodes, ∀ n' ∈ g.nodes, n.mark.terminal = n'.mark.terminal →
    n.edges.bare = n'.edges.bare → n = n'

/-- **A merged graph is minimal.** -/
theorem isMinimal_merge {g : WordGraph} (h : SharesSoundly g.nodes g.size) : g.merge.IsMinimal := by
  obtain ⟨s, hsound, hroot, -⟩ := exists_merging h
  intro n hn n' hn'
  exact hsound.eq_of_bare_eq (hsound.keeps_of_mem_nodes hroot n hn)
    (hsound.keeps_of_mem_nodes hroot n' hn')

end WordGraph

namespace Image

/-! ## §3 Graphs of the same shape -/

/-- The nodes are equal but for numbers. -/
def SameTree (g g' : WordGraph) (n n' : Node) : Prop :=
  n ∈ g.nodes ∧ n' ∈ g'.nodes ∧ n.mark.terminal = n'.mark.terminal ∧ n.edges.bare = n'.edges.bare

/-- Edges that are equal but for numbers are alike. -/
theorem alikeEdges_of_bare_eq {g g' : WordGraph} {e e' : Edges}
    (he : ∀ c ∈ e.targets, c ∈ g.nodes) (he' : ∀ c ∈ e'.targets, c ∈ g'.nodes)
    (hbare : e.bare = e'.bare) : AlikeEdges (SameTree g g') e e' := by
  induction e generalizing e' with
  | nil =>
    rw [Edges.bare_eq_nil_iff.mp hbare.symm]
    exact .nil
  -- Both trees agree in the first edge, and then in the others.
  | edge l m below others _ ihOthers =>
    cases e' with
    | nil => cases hbare
    | edge l' m' below' others' =>
      simp only [Edges.bare, Edges.edge.injEq, Mark.mk.injEq, true_and, and_true] at hbare
      obtain ⟨rfl, hterminal, hbelow, hothers⟩ := hbare
      apply AlikeEdges.edge hterminal
      · exact ⟨he _ (by simp), he' _ (by simp), hterminal, hbelow⟩
      · exact ihOthers (fun c hc => he c (by simp [hc])) (fun c hc => he' c (by simp [hc])) hothers

/-- **Minimal graphs are alike** where they are equal but for numbers. -/
theorem isAlike_sameTree {g g' : WordGraph} (hshares : SharesSoundly g.nodes g.size)
    (hshares' : SharesSoundly g'.nodes g'.size) (hminimal : g.IsMinimal)
    (hminimal' : g'.IsMinimal) : IsAlike (SameTree g g') where
  edges n n' := by
    rintro ⟨hn, hn', -, hbare⟩
    apply alikeEdges_of_bare_eq _ _ hbare
    · exact fun c hc => WordGraph.mem_nodes_of_mem_targets hn hc
    · exact fun c hc => WordGraph.mem_nodes_of_mem_targets hn' hc
  number_iff n n' m m' := by
    rintro ⟨hn, hn', hterminal, hbare⟩ ⟨hm, hm', hterminal', hbare'⟩ -
    -- One number is on one node, and nodes equal to one node are equal to each other.
    constructor
    · intro hnumber
      obtain rfl := hshares.eq_of_number_eq hn hm hnumber
      rw [hminimal' n' hn' m' hm' (hterminal.symm.trans hterminal') (hbare.symm.trans hbare')]
    · intro hnumber
      obtain rfl := hshares'.eq_of_number_eq hn' hm' hnumber
      rw [hminimal n hn m hm (hterminal.trans hterminal'.symm) (hbare.trans hbare'.symm)]

/-- **Merged graphs of the same words have the same image**, if they have no dead ends. -/
theorem encode_merge_eq_of_words {g g' : WordGraph} (hsound : g.IsSound) (hsound' : g'.IsSound)
    (hlive : g.IsLive) (hlive' : g'.IsLive) (hwords : ∀ w, w ∈ g.words ↔ w ∈ g'.words) :
    encode g.merge = encode g'.merge := by
  obtain ⟨hshares, hterminal, hbare⟩ := WordGraph.merge_spec hsound.sharesSoundly
  obtain ⟨hshares', hterminal', hbare'⟩ := WordGraph.merge_spec hsound'.sharesSoundly
  apply encode_alike (isAlike_sameTree hshares hshares'
    (WordGraph.isMinimal_merge hsound.sharesSoundly)
    (WordGraph.isMinimal_merge hsound'.sharesSoundly))
  refine ⟨g.merge.root_mem_nodes, g'.merge.root_mem_nodes, ?_, ?_⟩
  · rw [hterminal, hterminal', hlive.root, hlive'.root]
  -- What a merge writes depends on the trees alone, and the words tell these.
  · calc g.merge.root.edges.bare
        = g.root.edges.bare := hbare
      _ = g'.root.edges.bare := Edges.bare_eq_of_mem_words_iff hsound.sorted hsound'.sorted
            hlive.edges hlive'.edges hwords
      _ = g'.merge.root.edges.bare := hbare'.symm

/-! ## §4 A graph written and read -/

section Read

variable {g : WordGraph} {layout : Layout} {placed : List Node}

/-- **What is read of the entries of edges** is equal to them but for numbers. -/
theorem IsLayout.bare_eq_of_unfolds (h : IsLayout g layout placed)
    (hshares : SharesSoundly g.nodes g.size) {named : Nat → Bool → Mark → Prop}
    (hnamed : ∀ run terminal m, named run terminal m → m.terminal = terminal) {e e' : Edges}
    (hnodes : ∀ c ∈ e.targets, c ∈ g.nodes) (hne : e ≠ .nil) {place : Nat} (hplace : place ≠ 0)
    (hholds : Holds (entriesFor layout g).toArray place (runEntries layout e))
    (hunfolds : Unfolds (entriesFor layout g).toArray named place e') : e'.bare = e.bare := by
  induction e generalizing place e' with
  | nil => exact absurd rfl hne
  | edge l m below others ihBelow ihOthers =>
    have hnode : (⟨m, below⟩ : Node) ∈ g.nodes := hnodes _ (by simp)
    have hbelow : ∀ below', Unfolds (entriesFor layout g).toArray named
        (layout.runFor ⟨m, below⟩) below' → below'.bare = below.bare := by
      intro below' hunfolds
      by_cases hnil : below = .nil
      · rw [hunfolds.eq_nil_iff.mpr (h.runFor_eq_zero hshares hnode hnil), hnil]
      · have hplaced := (h.mem_iff ⟨m, below⟩).mpr ⟨hnode, hnil⟩
        exact ihBelow (fun c hc => WordGraph.mem_nodes_of_mem_targets hnode hc) hnil
          (h.runFor_pos hplaced) (h.holds hplaced) hunfolds
    -- The entry of the first edge tells whether it is the last one.
    cases hunfolds with
    | none => exact absurd rfl hplace
    | @last _ entry m' below' _ hentry _ hlast hmark hunfolds =>
      obtain rfl : _ = entry := Option.some.inj (hholds.head.symm.trans hentry)
      cases others with
      | nil =>
        simp only [letterOf_entryOf, isTerminal_entryOf, runOf_entryOf] at hmark hunfolds ⊢
        rw [Edges.bare, hnamed _ _ _ hmark, hbelow below' hunfolds]
        rfl
      | edge l' m' below' others' => simp at hlast
    | @more _ entry next m' below' others' _ hentry _ hlast _ _ hmark hunfolds hrest =>
      obtain rfl : _ = entry := Option.some.inj (hholds.head.symm.trans hentry)
      cases others with
      | nil => simp at hlast
      | edge l₂ m₂ below₂ others₂ =>
        have hothers := ihOthers (fun c hc => hnodes c (by simp_all)) (by simp)
          (Nat.succ_ne_zero place) hholds.tail hrest
        simp only [letterOf_entryOf, isTerminal_entryOf, runOf_entryOf] at hmark hunfolds ⊢
        rw [Edges.bare, hnamed _ _ _ hmark, hbelow below' hunfolds, hothers]
        rfl

end Read

/-- **A graph that is read of its own image** is the graph written, but for numbers. -/
theorem bare_eq_of_decode_encode {g g' : WordGraph} (hshares : SharesSoundly g.nodes g.size)
    {bytes : List UInt8} (hencode : encode g = .ok bytes) (hdecode : decode bytes = .ok g') :
    g'.root.edges.bare = g.root.edges.bare := by
  obtain ⟨layout, placed, hlayout, rfl⟩ := exists_layout_of_encode hshares hencode
  obtain ⟨table, named, himage, hnaming, -, hunfolds⟩ := unfolds_of_decode hdecode
  obtain rfl : table = (entriesFor layout g).toArray := himage.unique (hlayout.isImage hshares)
  rw [rootRun_entriesFor] at hunfolds
  -- A graph without edges is written as a run of none.
  by_cases hnil : g.root.edges = .nil
  · rw [hunfolds.eq_nil_iff.mpr (hlayout.runFor_eq_zero hshares g.root_mem_nodes hnil), hnil]
  · have hplaced := (hlayout.mem_iff g.root).mpr ⟨g.root_mem_nodes, hnil⟩
    exact hlayout.bare_eq_of_unfolds hshares hnaming.terminal_eq
      (fun c hc => WordGraph.mem_nodes_of_mem_targets g.root_mem_nodes hc) hnil
      (hlayout.runFor_pos hplaced) (hlayout.holds hplaced) hunfolds

/-- No word ends at the root of a graph that is read. -/
theorem terminal_root_of_decode {bytes : List UInt8} {g : WordGraph} (h : decode bytes = .ok g) :
    g.root.mark.terminal = false := by
  obtain ⟨table, named, -, hnaming, hroot, -⟩ := unfolds_of_decode h
  exact hnaming.terminal_eq _ _ _ hroot

/-- **No dead end comes from an image** of a graph without dead ends. -/
theorem isLive_of_decode_encode {g g' : WordGraph} (hshares : SharesSoundly g.nodes g.size)
    (hlive : g.IsLive) {bytes : List UInt8} (hencode : encode g = .ok bytes)
    (hdecode : decode bytes = .ok g') : g'.IsLive := by
  refine ⟨terminal_root_of_decode hdecode, ?_⟩
  rw [← Edges.live_bare, bare_eq_of_decode_encode hshares hencode hdecode, Edges.live_bare]
  exact hlive.edges

end Image

namespace Vocabulary

/-! ## §5 Images of vocabularies -/

/-- **The vocabularies that are built from the empty one** by words added, merges, plain images that
were written for vocabularies built in this way, and images of any origin whose words are spelled
backwards. An image that is refused changes nothing. -/
inductive IsBuilt : Vocabulary → Prop
  | empty : IsBuilt .empty
  | add {v : Vocabulary} (h : IsBuilt v) (w : Word) : IsBuilt (v.add w).1
  | importWords {v : Vocabulary} (h : IsBuilt v) (words : List Word) :
    IsBuilt (v.importWords words).1
  | merge {v : Vocabulary} (h : IsBuilt v) : IsBuilt v.merge
  | load {v u : Vocabulary} {bytes : List UInt8} (h : IsBuilt v) (hu : IsBuilt u)
    (himage : u.image = .ok bytes) (expected : Option (BitVec 16)) :
    IsBuilt (v.load bytes false expected)
  | loadBackwards {v : Vocabulary} (h : IsBuilt v) (bytes : List UInt8)
    (expected : Option (BitVec 16)) : IsBuilt (v.load bytes true expected)

/-- **The vocabulary is sound and its graph has no dead ends.** -/
structure IsWhole (v : Vocabulary) : Prop where
  sound : v.IsSound
  live : v.forward.IsLive

theorem isWhole_empty : empty.IsWhole := ⟨isSound_empty, WordGraph.isLive_empty⟩

theorem IsWhole.add {v : Vocabulary} (h : v.IsWhole) (w : Word) : (v.add w).1.IsWhole := by
  refine ⟨h.sound.add w, ?_⟩
  have hinsert : (v.forward.insert w.upper).1.IsLive :=
    h.live.perform h.sound.forward (.insert w.upper)
  -- A word that was there already leaves the graph as it is.
  unfold Vocabulary.add
  split
  · next forward heq =>
    rw [heq] at hinsert
    exact hinsert
  · exact h.live

theorem IsWhole.merge {v : Vocabulary} (h : v.IsWhole) : v.merge.IsWhole :=
  ⟨h.sound.merge, h.live.perform h.sound.forward .merge⟩

theorem IsWhole.importWords {v : Vocabulary} (h : v.IsWhole) (words : List Word) :
    (v.importWords words).1.IsWhole :=
  (addAll_induction words h fun _ hv w _ => hv.add w).merge

/-- A graph whose words are turned has no dead ends. -/
theorem isLive_turned (g : WordGraph) : (turned g).IsLive := by
  rw [turned_eq_run]
  have hsound := WordGraph.isSound_empty.run (g.words.map fun w => GraphStep.insert w.reverse)
  have hlive := WordGraph.isLive_empty.run WordGraph.isSound_empty
    (g.words.map fun w => GraphStep.insert w.reverse)
  exact hlive.perform hsound .merge

/-- **An image of a vocabulary without dead ends** is read as such a vocabulary. -/
theorem IsWhole.load {v u : Vocabulary} {bytes : List UInt8} (h : v.IsWhole) (hu : u.IsWhole)
    (himage : u.image = .ok bytes) (expected : Option (BitVec 16)) :
    (v.load bytes false expected).IsWhole := by
  refine ⟨h.sound.load bytes false expected, ?_⟩
  unfold Vocabulary.load
  split
  · next loaded hloaded =>
    obtain ⟨g, hdecode, rfl⟩ := ofImage_eq_ok hloaded
    exact Image.isLive_of_decode_encode hu.merge.sound.forward.sharesSoundly hu.merge.live himage
      hdecode
  · exact h.live

theorem IsWhole.loadBackwards {v : Vocabulary} (h : v.IsWhole) (bytes : List UInt8)
    (expected : Option (BitVec 16)) : (v.load bytes true expected).IsWhole := by
  refine ⟨h.sound.load bytes true expected, ?_⟩
  unfold Vocabulary.load
  split
  · next loaded hloaded =>
    obtain ⟨g, -, rfl⟩ := ofImage_eq_ok hloaded
    exact isLive_turned g
  · exact h.live

theorem IsBuilt.isWhole {v : Vocabulary} (h : v.IsBuilt) : v.IsWhole := by
  induction h with
  | empty => exact isWhole_empty
  | add _ w ih => exact ih.add w
  | importWords _ words ih => exact ih.importWords words
  | merge _ ih => exact ih.merge
  | load _ _ himage expected ih ihImage => exact ih.load ihImage himage expected
  | loadBackwards _ bytes expected ih => exact ih.loadBackwards bytes expected

/-- **The image depends on the words only.** Two vocabularies with the same words, built in any two
ways, have the same bytes as their images and the same checksum, or the same fault. -/
theorem image_eq_of_words {v u : Vocabulary} (hv : v.IsBuilt) (hu : u.IsBuilt)
    (hwords : ∀ w, w ∈ v.words ↔ w ∈ u.words) :
    v.image = u.image ∧ v.image.map checksum = u.image.map checksum := by
  have himage : v.image = u.image := by
    apply Image.encode_merge_eq_of_words hv.isWhole.sound.forward hu.isWhole.sound.forward
      hv.isWhole.live hu.isWhole.live
    exact hwords
  exact ⟨himage, by rw [himage]⟩

/-- The words `AT` and `BAT`, spelled backwards. -/
def imageOfTurned : List UInt8 :=
  Image.magic ++ [4, 0x400, 0xA54, 0xF41, 0x342].flatMap Image.wordBytes

/-- The words `AT` and `BAT`, added one by one or read from an image in which they are spelled
backwards, have one image. -/
theorem image_of_two_words_twice :
    (empty.load imageOfTurned true none).words = [[0x41, 0x54], [0x42, 0x41, 0x54]] ∧
      ((empty.add [0x42, 0x41, 0x54]).1.add [0x41, 0x54]).1.image =
        (empty.load imageOfTurned true none).image := by
  have hwords : ∀ w, w ∈ ((empty.add [0x42, 0x41, 0x54]).1.add [0x41, 0x54]).1.words ↔
      w ∈ (empty.load imageOfTurned true none).words := by
    intro w
    rw [show ((empty.add [0x42, 0x41, 0x54]).1.add [0x41, 0x54]).1.words =
      (empty.load imageOfTurned true none).words by decide +kernel]
  refine ⟨by decide +kernel, ?_⟩
  exact (image_eq_of_words ((IsBuilt.empty.add _).add _) (.loadBackwards .empty _ _) hwords).1

end Vocabulary

end WordStudy
