import WordStudy.Proofs.Graph.Layout
import WordStudy.Proofs.Graph.Live
import WordStudy.Proofs.Graph.Reading

/-!
# Writing and reading a graph

The table that is written for a graph unfolds to the graph itself, so that it is well formed, spells
the same words and is read again. The graph that is read has other nodes: it shares what has one
run. But both graphs are **alike** node by node, and graphs that are alike are written alike, so
that the bytes are the same the second time.
-/

namespace WordStudy

open Text

namespace Image

/-! ## §1 The table of a layout -/

/-- The marks of the nodes of a graph, by the runs at which they are laid out. -/
def laidNames (g : WordGraph) (layout : Layout) (run : Nat) (terminal : Bool) (m : Mark) : Prop :=
  ∃ n ∈ g.nodes, n.mark = m ∧ layout.runFor n = run ∧ m.terminal = terminal

section Table

variable {g : WordGraph} {layout : Layout} {placed : List Node}

/-- Edges whose entries are in the table from a place on. -/
theorem IsLayout.unfolds_edges (h : IsLayout g layout placed)
    (hshares : SharesSoundly g.nodes g.size) {e : Edges} (hsorted : e.Sorted) (hupper : e.Upper)
    (hnodes : ∀ c ∈ e.targets, c ∈ g.nodes) (hne : e ≠ .nil) {place : Nat} (hplace : place ≠ 0)
    (hholds : Holds (entriesFor layout g).toArray place (runEntries layout e)) :
    Unfolds (entriesFor layout g).toArray (laidNames g layout) place e := by
  -- The induction is on the edges: below through their own runs, others one place further.
  induction e generalizing place with
  | nil => exact absurd rfl hne
  | edge l m below others ihBelow ihOthers =>
    have hnode : (⟨m, below⟩ : Node) ∈ g.nodes := hnodes _ (by simp)
    have hmark : laidNames g layout (layout.runFor ⟨m, below⟩) m.terminal m :=
      ⟨_, hnode, rfl, rfl, rfl⟩
    -- A child without edges has run 0; any other child was placed.
    have hbelow : Unfolds (entriesFor layout g).toArray (laidNames g layout)
        (layout.runFor ⟨m, below⟩) below := by
      by_cases hnil : below = .nil
      · rw [h.runFor_eq_zero hshares hnode hnil, hnil]
        exact .none
      · have hplaced := (h.mem_iff ⟨m, below⟩).mpr ⟨hnode, hnil⟩
        exact ihBelow hsorted.1 hupper.2.1
          (fun c hc => WordGraph.mem_nodes_of_mem_targets hnode hc) hnil (h.runFor_pos hplaced)
          (h.holds hplaced)
    cases others with
    | nil =>
      have hlast : Unfolds _ (laidNames g layout) place _ := .last hplace hholds.head
        (by simpa using hupper.1) (by simp) (by simpa using hmark) (by simpa using hbelow)
      simpa using hlast
    | edge l' m' below' others' =>
      have hothers := ihOthers hsorted.2.2 hupper.2.2 (fun c hc => hnodes c (by simp_all))
        (by simp) (Nat.succ_ne_zero place) hholds.tail
      have hless : l < l' := hsorted.2.1 l' (by simp)
      have hmore : Unfolds _ (laidNames g layout) place _ := .more hplace hholds.head
        (by simpa using hupper.1) (by simp) hholds.tail.head (by simpa using hless)
        (by simpa using hmark) (by simpa using hbelow) hothers
      simpa using hmore

theorem rootRun_entriesFor (g : WordGraph) (layout : Layout) :
    rootRun (entriesFor layout g).toArray = layout.runFor g.root := by
  simp [rootRun, entriesFor, runOf]

/-- **The table that is written unfolds to the graph.** -/
theorem IsLayout.unfolds (h : IsLayout g layout placed) (hshares : SharesSoundly g.nodes g.size)
    (hsorted : g.root.edges.Sorted) (hupper : g.root.edges.Upper) :
    Unfolds (entriesFor layout g).toArray (laidNames g layout) (layout.runFor g.root)
      g.root.edges := by
  by_cases hnil : g.root.edges = .nil
  · rw [h.runFor_eq_zero hshares g.root_mem_nodes hnil, hnil]
    exact .none
  · have hplaced := (h.mem_iff g.root).mpr ⟨g.root_mem_nodes, hnil⟩
    exact h.unfolds_edges hshares hsorted hupper
      (fun c hc => WordGraph.mem_nodes_of_mem_targets g.root_mem_nodes hc) hnil
      (h.runFor_pos hplaced) (h.holds hplaced)

end Table

/-! ## §2 Paths -/

/-- **No path is longer than the edges are deep**, dead ends counted. -/
theorem Unfolds.length_le_height {table : Array Nat} {named : Nat → Bool → Mark → Prop} {run : Nat}
    {e : Edges} (h : Unfolds table named run e) {path : List Nat} (hpath : IsPath table run path) :
    -- A path takes the run's first edge, or an edge behind it.
    path.length ≤ e.height := by
  induction h generalizing path with
  | none =>
    cases hpath with
    | nil => exact Nat.le_refl 0
    | cons hedge _ => exact absurd hedge (not_isEdge_zero _)
  | last _ hfirst _ hlast _ _ ih =>
    cases hpath with
    | nil => exact Nat.zero_le _
    | cons hedge hpath =>
      obtain rfl := (inRun_of_last hfirst hlast).mp hedge.2
      exact Nat.le_trans (Nat.succ_le_succ (ih hpath)) (Nat.le_max_left _ _)
  | more _ hfirst _ hlast _ _ _ _ _ ihBelow ihOthers =>
    cases hpath with
    | nil => exact Nat.zero_le _
    | cons hedge hpath =>
      rcases (inRun_of_more hfirst hlast).mp hedge.2 with rfl | hbehind
      · exact Nat.le_trans (Nat.succ_le_succ (ihBelow hpath)) (Nat.le_max_left _ _)
      · exact Nat.le_trans (ihOthers (.cons ⟨Nat.succ_ne_zero _, hbehind⟩ hpath))
          (Nat.le_max_right _ _)

/-! ## §3 Graphs that are alike -/

/-- The edges have the same letters and marks of words, and lead to related nodes. -/
inductive AlikeEdges (related : Node → Node → Prop) : Edges → Edges → Prop
  | nil : AlikeEdges related .nil .nil
  | edge {l : UInt8} {m m' : Mark} {below below' others others' : Edges}
    (hterminal : m.terminal = m'.terminal) (hnode : related ⟨m, below⟩ ⟨m', below'⟩)
    (hothers : AlikeEdges related others others') :
    AlikeEdges related (.edge l m below others) (.edge l m' below' others')

/-- **Related nodes are alike**: so are their edges, and they are shared in the same way. -/
structure IsAlike (related : Node → Node → Prop) : Prop where
  edges : ∀ n n', related n n' → AlikeEdges related n.edges n'.edges
  number_iff : ∀ n n' m m', related n n' → related m m' → m.edges ≠ .nil →
    (n.mark.number = m.mark.number ↔ n'.mark.number = m'.mark.number)

/-- The layouts list edges that are alike, and related nodes have the same runs. -/
structure AlikeLayouts (related : Node → Node → Prop) (layout layout' : Layout) : Prop where
  order : List.Forall₂ (AlikeEdges related) layout.order layout'.order
  next_eq : layout.next = layout'.next
  runs_eq : ∀ n n', related n n' → layout.runs[n.mark.number]? = layout'.runs[n'.mark.number]?

section Alike

variable {related : Node → Node → Prop}

theorem AlikeEdges.length_letters {e e' : Edges} (h : AlikeEdges related e e') :
    e.letters.length = e'.letters.length := by
  induction h with
  | nil => rfl
  | edge _ _ _ ih => simp [ih]

theorem AlikeEdges.targets {e e' : Edges} (h : AlikeEdges related e e') :
    List.Forall₂ related e.targets e'.targets := by
  induction h with
  | nil => exact .nil
  | edge _ hnode _ ih => exact .cons hnode ih

theorem AlikeLayouts.runFor_eq {layout layout' : Layout} (h : AlikeLayouts related layout layout')
    {n n' : Node} (hn : related n n') : layout.runFor n = layout'.runFor n' := by
  rw [Layout.runFor, Layout.runFor, h.runs_eq n n' hn]

theorem AlikeLayouts.contains_eq {layout layout' : Layout}
    (h : AlikeLayouts related layout layout') {n n' : Node} (hn : related n n') :
    layout.runs.contains n.mark.number = layout'.runs.contains n'.mark.number := by
  simp only [Std.TreeMap.contains_eq_isSome_getElem?, h.runs_eq n n' hn]

/-- A node related to one without edges has none. -/
theorem IsAlike.eq_of_nil (halike : IsAlike related) {m : Mark} {n' : Node}
    (hn : related ⟨m, .nil⟩ n') : ∃ m', n' = ⟨m', .nil⟩ := by
  obtain ⟨m', e'⟩ := n'
  cases halike.edges _ _ hn
  exact ⟨m', rfl⟩

/-- A node related to one with edges has edges. -/
theorem IsAlike.eq_of_edge (halike : IsAlike related) {m k : Mark} {l : UInt8}
    {below others : Edges} {n' : Node} (hn : related ⟨m, .edge l k below others⟩ n') :
    ∃ m' k' below' others', n' = ⟨m', .edge l k' below' others'⟩ := by
  obtain ⟨m', e'⟩ := n'
  cases halike.edges _ _ hn
  exact ⟨m', _, _, _, rfl⟩

/-- Edges that are alike have the same entries. -/
theorem AlikeEdges.runEntries_eq {layout layout' : Layout} {e e' : Edges}
    (h : AlikeEdges related e e') (hlayout : AlikeLayouts related layout layout') :
    runEntries layout e = runEntries layout' e' := by
  induction h with
  | nil => rfl
  | edge hterminal hnode hothers ih =>
    simp only [runEntries, hterminal, hlayout.runFor_eq hnode, ih]
    cases hothers <;> rfl

theorem AlikeLayouts.flatMap_runEntries {layout layout' : Layout}
    (h : AlikeLayouts related layout layout') {order order' : List Edges}
    (horder : List.Forall₂ (AlikeEdges related) order order') :
    order.flatMap (runEntries layout) = order'.flatMap (runEntries layout') := by
  induction horder with
  | nil => rfl
  | cons hedges _ ih => rw [List.flatMap_cons, List.flatMap_cons, hedges.runEntries_eq h, ih]

/-- Related nodes are added. -/
theorem AlikeLayouts.add (halike : IsAlike related) {layout layout' : Layout}
    (h : AlikeLayouts related layout layout') {n n' : Node} (hn : related n n')
    (hedges : n.edges ≠ .nil) : AlikeLayouts related (layout.add n) (layout'.add n') where
  order := .cons (halike.edges n n' hn) h.order
  next_eq := by
    show layout.next + _ = layout'.next + _
    rw [h.next_eq, (halike.edges n n' hn).length_letters]
  runs_eq m m' hm := by
    have hnumber := halike.number_iff m m' n n' hm hn hedges
    simp only [Layout.add, Std.TreeMap.getElem?_insert, Std.compare_eq_iff_eq, h.next_eq,
      h.runs_eq m m' hm, eq_comm (a := n.mark.number), eq_comm (a := n'.mark.number), hnumber]

/-- **Related nodes are laid out alike.** -/
theorem layOut_alike (halike : IsAlike related) {front back front' back' : List Node}
    {layout layout' : Layout} (hfront : List.Forall₂ related front front')
    (hback : List.Forall₂ related back back') (h : AlikeLayouts related layout layout') :
    (∃ done done', layOut front back layout = .ok done ∧
        layOut front' back' layout' = .ok done' ∧ AlikeLayouts related done done') ∨
      ∃ fault, layOut front back layout = .error fault ∧
        layOut front' back' layout' = .error fault := by
  -- Both lists and the layouts stay related at each turn, so the same branch is taken in both.
  fun_induction layOut front back layout generalizing front' back' layout' with
  | case1 layout =>
    cases hfront
    cases hback
    exact .inl ⟨layout, layout', rfl, by rw [layOut], h⟩
  | case2 node back layout ih =>
    cases hfront
    cases hback with
    | cons hnode hback =>
      have hnext := ih (List.forall₂_reverse_iff.mpr (.cons hnode hback)) .nil h
      rwa [layOut]
  | case3 m front back layout ih =>
    cases hfront with
    | cons hnode hfront =>
      obtain ⟨m', rfl⟩ := halike.eq_of_nil hnode
      rw [layOut]
      exact ih hfront hback h
  | case4 m l k below others front back layout hlaid ih =>
    cases hfront with
    | cons hnode hfront =>
      obtain ⟨m', k', below', others', rfl⟩ := halike.eq_of_edge hnode
      rw [h.contains_eq hnode] at hlaid
      rw [layOut, if_pos hlaid]
      exact ih hfront hback h
  | case5 m l k below others front back layout hlaid =>
    rename_i hfull
    cases hfront with
    | cons hnode hfront =>
      -- The layouts are as large, so both have no room left.
      obtain ⟨m', k', below', others', rfl⟩ := halike.eq_of_edge hnode
      have hadd := h.add halike hnode (by simp)
      rw [h.contains_eq hnode] at hlaid
      rw [layOut, if_neg hlaid]
      exact .inr ⟨_, rfl, if_pos (hadd.next_eq ▸ hfull)⟩
  | case6 m l k below others front back layout hlaid =>
    rename_i hroom ih
    cases hfront with
    | cons hnode hfront =>
      have htargets := (halike.edges _ _ hnode).targets
      obtain ⟨m', k', below', others', rfl⟩ := halike.eq_of_edge hnode
      have hadd := h.add halike hnode (by simp)
      rw [h.contains_eq hnode] at hlaid
      rw [layOut, if_neg hlaid]
      simp only
      rw [if_neg (hadd.next_eq ▸ hroom)]
      exact ih hfront (List.rel_append (List.forall₂_reverse_iff.mpr htargets) hback) hadd

/-- **Graphs that are alike are written alike.** -/
theorem encode_alike (halike : IsAlike related) {g g' : WordGraph}
    (hroot : related g.root g'.root) : encode g = encode g' := by
  have hstart : AlikeLayouts related Layout.start Layout.start := ⟨.nil, rfl, fun _ _ _ => rfl⟩
  unfold encode
  rcases layOut_alike halike (.cons hroot .nil) .nil hstart with
    ⟨done, done', hdone, hdone', h⟩ | ⟨fault, hfault, hfault'⟩
  · rw [hdone, hdone']
    simp only [h.runFor_eq hroot, h.next_eq,
      h.flatMap_runEntries (List.forall₂_reverse_iff.mpr h.order)]
  · rw [hfault, hfault']

end Alike

/-! ## §4 One table, two graphs -/

/-- The nodes are what a table unfolds to from one run, under the one and the other naming. -/
def SameRun (table : Array Nat) (named named' : Nat → Bool → Mark → Prop) (n n' : Node) : Prop :=
  ∃ run terminal, named run terminal n.mark ∧ named' run terminal n'.mark ∧
    Unfolds table named run n.edges ∧ Unfolds table named' run n'.edges

/-- **What one table unfolds to twice is alike.** -/
theorem Unfolds.alike {table : Array Nat} {named named' : Nat → Bool → Mark → Prop}
    (hnamed : ∀ run terminal m, named run terminal m → m.terminal = terminal)
    (hnamed' : ∀ run terminal m, named' run terminal m → m.terminal = terminal) {run : Nat}
    {e e' : Edges} (h : Unfolds table named run e) (h' : Unfolds table named' run e') :
    AlikeEdges (SameRun table named named') e e' := by
  -- Both readings see the same entry, so the run ends here in both or in none.
  induction h generalizing e' with
  | none =>
    cases h' with
    | none => exact .nil
    | last hplace => exact absurd rfl hplace
    | more hplace => exact absurd rfl hplace
  | last hplace hentry _ hlast hmark hbelow =>
    cases h' with
    | none => exact absurd rfl hplace
    | last _ hentry' _ _ hmark' hbelow' =>
      rw [hentry] at hentry'
      cases hentry'
      exact .edge ((hnamed _ _ _ hmark).trans (hnamed' _ _ _ hmark').symm)
        ⟨_, _, hmark, hmark', hbelow, hbelow'⟩ .nil
    | more _ hentry' _ hlast' =>
      rw [hentry] at hentry'
      cases hentry'
      rw [hlast] at hlast'
      cases hlast'
  | more hplace hentry _ hlast _ _ hmark hbelow _ _ ihOthers =>
    cases h' with
    | none => exact absurd rfl hplace
    | last _ hentry' _ hlast' =>
      rw [hentry] at hentry'
      cases hentry'
      rw [hlast] at hlast'
      cases hlast'
    | more _ hentry' _ _ _ _ hmark' hbelow' hothers' =>
      rw [hentry] at hentry'
      cases hentry'
      exact .edge ((hnamed _ _ _ hmark).trans (hnamed' _ _ _ hmark').symm)
        ⟨_, _, hmark, hmark', hbelow, hbelow'⟩ (ihOthers hothers')

/-- **The graph that was written and the one that is read are alike.** -/
theorem IsLayout.isAlike {g : WordGraph} {layout : Layout} {placed : List Node}
    (h : IsLayout g layout placed) (hshares : SharesSoundly g.nodes g.size) {table : Array Nat}
    {named : Nat → Bool → Mark → Prop} (hnaming : IsNaming named) :
    IsAlike (SameRun table (laidNames g layout) named) where
  edges n n' := by
    rintro ⟨run, terminal, -, -, hunfolds, hunfolds'⟩
    exact hunfolds.alike (fun _ _ _ ⟨_, _, _, _, ht⟩ => ht) hnaming.terminal_eq hunfolds'
  number_iff n n' m m' := by
    rintro ⟨run, terminal, ⟨x, hx, hxmark, rfl, rfl⟩, hn', -, -⟩
      ⟨run', terminal', ⟨y, hy, hymark, rfl, rfl⟩, hm', hm, -⟩ hedges
    constructor
    · intro hnumber
      obtain rfl : x = y := by
        refine hshares.eq_of_number_eq hx hy ?_
        rw [hxmark, hymark, hnumber]
      rw [← hxmark, hymark] at hn'
      exact congrArg Mark.number (hnaming.mark_eq _ _ _ _ hn' hm')
    · intro hnumber
      obtain ⟨hrun, -⟩ := hnaming.number_inj _ _ _ _ _ _ hn' hm' hnumber
      -- A run that is not 0 is that of a node with edges, and of one only.
      have hzero : layout.runFor y ≠ 0 := fun hzero => hedges (hm.eq_nil_iff.mpr hzero)
      have hplaced : ∀ z ∈ g.nodes, layout.runFor z ≠ 0 → z ∈ placed := fun z hz hne =>
        (h.mem_iff z).mpr ⟨hz, fun hnil => hne (h.runFor_eq_zero hshares hz hnil)⟩
      have hsame := h.eq_of_runFor_eq (hplaced x hx (hrun ▸ hzero)) (hplaced y hy hzero) hrun
      rw [← hxmark, ← hymark, hsame]

/-! ## §5 The round trip -/

/-- **What is written of a graph** is the image of a table that unfolds to it. -/
theorem exists_unfolds_of_encode {g : WordGraph} (hsound : g.IsSound)
    (hupper : g.root.edges.Upper) {bytes : List UInt8} (hencode : encode g = .ok bytes) :
    ∃ layout placed, IsLayout g layout placed ∧ IsImage bytes (entriesFor layout g).toArray ∧
      Unfolds (entriesFor layout g).toArray (laidNames g layout)
        (rootRun (entriesFor layout g).toArray) g.root.edges := by
  obtain ⟨hsorted, hshares⟩ := hsound
  obtain ⟨layout, placed, hlayout, rfl⟩ := exists_layout_of_encode hshares hencode
  refine ⟨layout, placed, hlayout, hlayout.isImage hshares, ?_⟩
  rw [rootRun_entriesFor]
  exact hlayout.unfolds hshares hsorted hupper

/-- **A graph that was written is read again**, and written the same once more, unless the reader
refuses a path that is too long for it. No word needs to go along that path. -/
theorem decode_of_encode {g : WordGraph} (hsound : g.IsSound) (hupper : g.root.edges.Upper)
    {bytes : List UInt8} (hencode : encode g = .ok bytes) :
    (∃ g', decode bytes = .ok g' ∧ g'.words = g.words ∧
      g'.wordCount = min g.words.length maxWord64 ∧
      (g.root.mark.terminal = false → encode g' = .ok bytes)) ∨
    decode bytes = .error .tooDeep ∧ maxDepth < g.root.edges.height := by
  obtain ⟨layout, placed, hlayout, himage, hunfolds⟩ :=
    exists_unfolds_of_encode hsound hupper hencode
  obtain ⟨hsorted, hshares⟩ := hsound
  have hform := hunfolds.isWellFormed
  rcases decode_of_isWellFormed himage hform with ⟨g', hdecode⟩ | ⟨hdecode, path, hpath, hlong⟩
  · left
    obtain ⟨table, named, himage', hnaming, hmark', hunfolds'⟩ := unfolds_of_decode hdecode
    obtain rfl : table = (entriesFor layout g).toArray := himage'.unique himage
    have hdescribes := describes_of_decode hdecode
    -- Both graphs list the words that the table spells, in ascending order.
    have hsame : g'.words = g.words := by
      refine Word.Ascending.eq_of_mem_iff hdescribes.sorted.ascending_words
        hsorted.ascending_words ?_
      intro w
      show w ∈ g'.root.edges.words ↔ w ∈ g.root.edges.words
      rw [hunfolds'.mem_words_iff hnaming.terminal_eq,
        hunfolds.mem_words_iff fun _ _ _ ⟨_, _, _, _, ht⟩ => ht]
    refine ⟨g', hdecode, hsame, by rw [hdescribes.wordCount_eq, hsame], fun hroot => ?_⟩
    have hmark : laidNames g layout (rootRun (entriesFor layout g).toArray) false g.root.mark :=
      ⟨g.root, g.root_mem_nodes, rfl, (rootRun_entriesFor g layout).symm, hroot⟩
    rw [← encode_alike (hlayout.isAlike hshares hnaming) ⟨_, _, hmark, hmark', hunfolds, hunfolds'⟩]
    exact hencode
  · exact .inr ⟨hdecode, Nat.lt_of_lt_of_le hlong (hunfolds.length_le_height hpath)⟩

/-- A graph without dead ends is read again, if its words are short enough. -/
theorem exists_decode_of_encode {g : WordGraph} (hsound : g.IsSound) (hlive : g.IsLive)
    (hwords : ∀ w ∈ g.words, w.InCapitals ∧ w.length ≤ maxDepth) {bytes : List UInt8}
    (hencode : encode g = .ok bytes) :
    ∃ g', decode bytes = .ok g' ∧ g'.words = g.words ∧
      g'.wordCount = min g.words.length maxWord64 ∧ encode g' = .ok bytes := by
  have hupper := hlive.edges.upper fun w hw => (hwords w hw).1
  rcases decode_of_encode hsound hupper hencode with
    ⟨g', hdecode, hsame, hcount, hagain⟩ | ⟨-, hlong⟩
  · exact ⟨g', hdecode, hsame, hcount, hagain hlive.root⟩
  · obtain ⟨w, hw, hlong⟩ := hlive.edges.exists_word_of_lt_height hlong
    exact absurd (hwords w hw).2 (Nat.not_le_of_lt hlong)

/-- **Writing and reading graphs.** After any insertions and merges, the graph is written exactly if
its edges and entry 0 are no more than `maxEntries`, each shared node counted once. If its words are
in upper case and no longer than `maxDepth`, what is written is read as a graph with the same words
in the same order and the same word count, as far as 64 bits hold it, and that graph is written as
the same bytes. -/
theorem decode_encode_run (steps : List GraphStep) :
    (∀ fault, encode (WordGraph.empty.run steps) = .error fault ↔
      fault = .tooManyEdges ∧ maxEntries < 1 + (WordGraph.empty.run steps).edgeTotal) ∧
    ((∀ w ∈ (WordGraph.empty.run steps).words, w.InCapitals ∧ w.length ≤ maxDepth) →
      ∀ bytes, encode (WordGraph.empty.run steps) = .ok bytes →
        ∃ g', decode bytes = .ok g' ∧ g'.words = (WordGraph.empty.run steps).words ∧
          g'.wordCount = min (WordGraph.empty.run steps).wordCount maxWord64 ∧
          encode g' = .ok bytes) := by
  have hsound := WordGraph.isSound_empty.run steps
  have hlive := WordGraph.isLive_empty.run WordGraph.isSound_empty steps
  refine ⟨encode_eq_error_iff hsound.sharesSoundly, ?_⟩
  intro hwords bytes hencode
  obtain ⟨more, hcount, hlength⟩ := WordGraph.isSound_empty.wordCount_run steps
  have hempty : WordGraph.empty.wordCount = WordGraph.empty.words.length := rfl
  rw [show (WordGraph.empty.run steps).wordCount = (WordGraph.empty.run steps).words.length by omega]
  exact exists_decode_of_encode hsound hlive hwords hencode

/-- The words `AT` and `BAT`, merged and one more added behind. -/
theorem decode_encode_run_of_three :
    ∃ bytes g', encode (WordGraph.empty.run
        [.insert [0x41, 0x54], .insert [0x42, 0x41, 0x54], .merge, .insert [0x41, 0x54, 0x45]]) =
          .ok bytes ∧
      decode bytes = .ok g' ∧ g'.words = [[0x41, 0x54], [0x41, 0x54, 0x45], [0x42, 0x41, 0x54]] ∧
      encode g' = .ok bytes := by
  obtain ⟨herror, hread⟩ := decode_encode_run
    [.insert [0x41, 0x54], .insert [0x42, 0x41, 0x54], .merge, .insert [0x41, 0x54, 0x45]]
  cases hencode : encode (WordGraph.empty.run
    [.insert [0x41, 0x54], .insert [0x42, 0x41, 0x54], .merge, .insert [0x41, 0x54, 0x45]]) with
  | error fault =>
    have hfull := ((herror fault).mp hencode).2
    exact absurd hfull (by decide +kernel)
  | ok bytes =>
    obtain ⟨g', hdecode, hwords, -, hagain⟩ := hread (by decide +kernel) bytes hencode
    exact ⟨bytes, g', rfl, hdecode, hwords.trans (by decide +kernel), hagain⟩

end Image

end WordStudy
