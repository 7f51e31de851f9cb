import WordStudy.Proofs.Graph.ArenaMerge

/-!
# Histories of a table

A table begins empty or as that of an image, and words are inserted and nodes merged in any order.
As long as there are no more nodes than 32 bits tell apart, it holds the graph with the same
history, and what is true of the graph is true of the table. With one node more, a place is **taken a
second time**: the table has words then that were never added, and merging it does not end.
-/

namespace WordStudy

open Text

namespace Arena

/-! ## §1 Histories -/

/-- The table of a graph that was read from an image. Nodes stand in the order in which they were
read. -/
def ofGraph (g : WordGraph) : Arena where
  cells := Array.ofFn fun i : Fin g.size =>
    ((g.nodes.find? (·.mark.number = i.val)).map Node.cell).getD {}
  root := g.root.place
  wordCount := g.wordCount

/-- A table to begin with: without words, or that of an image. -/
def IsInitial (a : Arena) : Prop :=
  a = empty ∨ ∃ bytes g, Image.decode bytes = .ok g ∧ a = ofGraph g

/-- The table after one change, if the change comes to an end. -/
def perform (a : Arena) : GraphStep → Option Arena
  | .insert w => some (a.insert w).1
  | .merge => a.merge

/-- The table after changes, the first one first. -/
def run (a : Arena) (steps : List GraphStep) : Option Arena := steps.foldlM perform a

/-- **At no time there are more nodes than 32 bits tell apart.** -/
def KeepsRoom (a : Arena) : List GraphStep → Prop
  | [] => a.cells.size ≤ maxCells
  | step :: steps =>
    a.cells.size ≤ maxCells ∧ ∀ a', a.perform step = some a' → a'.KeepsRoom steps

theorem KeepsRoom.size_le {a : Arena} {steps : List GraphStep} (h : a.KeepsRoom steps) :
    a.cells.size ≤ maxCells := by
  cases steps with
  | nil => exact h
  | cons step steps => exact h.1

theorem holds_empty : empty.Holds .empty where
  nodes n hn := by
    obtain rfl := List.mem_singleton.mp hn
    rfl
  root := rfl
  size := rfl
  wordCount := rfl
  small := by decide

theorem holds_ofGraph {g : WordGraph} (hshares : SharesSoundly g.nodes g.size)
    (hsmall : g.size ≤ maxCells) : (ofGraph g).Holds g where
  nodes n hn := by
    have hlt := hshares.bounded n hn
    -- The node found first is the only one of its number.
    have hfound : (g.nodes.find? (·.mark.number = n.mark.number)).isSome = true :=
      List.find?_isSome.mpr ⟨n, hn, by simp⟩
    obtain ⟨m, hfind⟩ := Option.isSome_iff_exists.mp hfound
    have hnumber : m.mark.number = n.mark.number := by simpa using List.find?_some hfind
    obtain rfl := hshares.eq_of_number_eq (List.mem_of_find?_eq_some hfind) hn hnumber
    simp [ofGraph, hlt, hfind]
  root := rfl
  size := Array.size_ofFn
  wordCount := rfl
  small := hsmall

/-- A table to begin with holds a graph to begin with. -/
theorem IsInitial.exists_holds {a : Arena} (h : a.IsInitial) (hsmall : a.cells.size ≤ maxCells) :
    ∃ g : WordGraph, g.IsInitial ∧ a.Holds g := by
  rcases h with rfl | ⟨bytes, g, hdecode, rfl⟩
  · exact ⟨.empty, .inl rfl, holds_empty⟩
  · have hinitial : g.IsInitial := .inr ⟨bytes, hdecode⟩
    have hsize : (ofGraph g).cells.size = g.size := Array.size_ofFn
    exact ⟨g, hinitial, holds_ofGraph hinitial.isSound.sharesSoundly (hsize ▸ hsmall)⟩

/-- **A change of the table is the change of the graph.** -/
theorem Holds.perform {a : Arena} {g : WordGraph} (h : a.Holds g) (hsound : g.IsSound)
    (step : GraphStep) (hroom : ∀ a', a.perform step = some a' → a'.cells.size ≤ maxCells) :
    ∃ a', a.perform step = some a' ∧ a'.Holds (g.perform step) := by
  cases step with
  | insert w => exact ⟨_, rfl, (h.insert hsound w (hroom _ rfl)).1⟩
  | merge => exact h.merge hsound

/-- **A table holds the graph with the same history**, and its history comes to an end. -/
theorem Holds.run {a : Arena} {g : WordGraph} (h : a.Holds g) (hsound : g.IsSound)
    (steps : List GraphStep) (hroom : a.KeepsRoom steps) :
    ∃ a', a.run steps = some a' ∧ a'.Holds (g.run steps) := by
  induction steps generalizing a g with
  | nil => exact ⟨a, rfl, h⟩
  | cons step steps ih =>
    obtain ⟨a', hperform, h'⟩ := h.perform hsound step fun b hb => (hroom.2 b hb).size_le
    obtain ⟨b, hrun, hb⟩ := ih h' (hsound.perform step) (hroom.2 a' hperform)
    refine ⟨b, ?_, hb⟩
    rw [Arena.run, List.foldlM_cons, hperform]
    exact hrun

/-! ## §2 How much room is needed -/

/-- As many nodes as changes can add: one for each letter, and one for the root. -/
def roomFor : List GraphStep → Nat
  | [] => 0
  | .insert w :: steps => w.length + 1 + roomFor steps
  | .merge :: steps => roomFor steps

theorem size_reach_le (a : Arena) (id : UInt32) (l : UInt8) :
    (a.reach id l).1.cells.size ≤ a.cells.size + 1 := by
  unfold reach
  split
  · unfold thaw
    split <;> simp
  · simp

theorem size_spell_le (a : Arena) (id : UInt32) (w : Word) :
    (a.spell id w).cells.size ≤ a.cells.size + w.length := by
  induction w generalizing a id with
  | nil => simp [spell]
  | cons l w ih =>
    have hstep : (a.descend id l).1.cells.size ≤ a.cells.size + 1 := by
      rw [descend_eq, size_change]
      exact a.size_reach_le id l
    have hrest := ih (a.descend id l).1 (a.descend id l).2
    rw [List.length_cons]
    exact Nat.le_trans hrest (by omega)

theorem size_insert_le (a : Arena) (w : Word) :
    (a.insert w).1.cells.size ≤ a.cells.size + (w.length + 1) := by
  unfold insert
  split
  · exact Nat.le_add_right _ _
  · have hthaw : (a.thaw a.root).1.cells.size ≤ a.cells.size + 1 := by
      unfold thaw
      split <;> simp
    have hspell := (a.thaw a.root).1.size_spell_le (a.thaw a.root).2 w
    exact Nat.le_trans hspell (by omega)

/-- **There is room for as many letters as 32 bits leave.** -/
theorem Holds.keepsRoom {a : Arena} {g : WordGraph} (h : a.Holds g) (hsound : g.IsSound)
    {steps : List GraphStep} (hroom : a.cells.size + roomFor steps ≤ maxCells) :
    a.KeepsRoom steps := by
  -- Each step takes no more than its own share of the room that is left.
  induction steps generalizing a g with
  | nil => exact hroom
  | cons step steps ih =>
    refine ⟨Nat.le_trans (Nat.le_add_right _ _) hroom, fun a' hperform => ?_⟩
    cases step with
    | insert w =>
      cases hperform
      have hsize := a.size_insert_le w
      rw [roomFor] at hroom
      exact ih (h.insert hsound w (by omega)).1 (hsound.insert w) (by omega)
    | merge =>
      obtain ⟨merged, hmerge, hholds⟩ := h.merge hsound
      obtain rfl : merged = a' := Option.some.inj (hmerge.symm.trans hperform)
      have hsize := WordGraph.size_merge_le hsound.sharesSoundly
      rw [← hholds.size, ← h.size] at hsize
      rw [roomFor] at hroom
      exact ih hholds hsound.merge (by omega)

/-! ## §3 A table as a set of words -/

theorem insert_isNew (a : Arena) (w : Word) :
    (a.insert w).2 = true ↔ w ≠ [] ∧ a.contains w = false := by
  unfold insert
  split
  · next hold =>
    simp only [Bool.or_eq_true, List.isEmpty_iff] at hold
    rcases hold with rfl | hold <;> simp_all
  · next hnew => simpa [not_or] using hnew

/-- **A table is a set of words, whatever is done to it**, as long as there are no more nodes than
32 bits tell apart. Every history comes to an end. The table then has the words that it began with
and those inserted, other than the empty word. An insertion tells whether the word is new and changes
nothing about another one; merging changes nothing at all. The words are listed in strictly
ascending order, each once, and as long as they are fewer than the greatest number of 64 bits, they
are as many as the word count says. -/
theorem history_behaves_as_set {a₀ : Arena} (h₀ : a₀.IsInitial) (steps : List GraphStep)
    (hroom : a₀.KeepsRoom steps) :
    ∃ a, a₀.run steps = some a ∧
    (∀ w, a.contains w = true ↔ w ≠ [] ∧ (a₀.contains w = true ∨ .insert w ∈ steps)) ∧
    (∀ w, (a.insert w).2 = true ↔ w ≠ [] ∧ a.contains w = false) ∧
    (∀ w v, (a.insert w).1.cells.size ≤ maxCells → v ≠ w →
      (a.insert w).1.contains v = a.contains v) ∧
    (∃ merged, a.merge = some merged ∧ ∀ v, merged.contains v = a.contains v) ∧
    ∃ words, a.words = some words ∧ Word.Ascending words ∧
      (∀ w, w ∈ words ↔ a.contains w = true) ∧
      (words.length < maxWord64 → a.wordCount = words.length) := by
  -- Arena and graph take the same steps, so what the graph says holds of the arena.
  obtain ⟨g₀, hinitial, hholds₀⟩ := h₀.exists_holds hroom.size_le
  obtain ⟨a, hrun, hholds⟩ := hholds₀.run hinitial.isSound steps hroom
  have hsound := hinitial.isSound.run steps
  have hshares := hsound.sharesSoundly
  obtain ⟨hcontains, -, hothers, hmerged, hascending, hmem, hcount, -⟩ :=
    WordGraph.run_behaves_as_set hinitial steps
  obtain ⟨merged, hmerge, hholdsMerged⟩ := hholds.merge hsound
  refine ⟨a, hrun, fun w => ?_, fun w => ?_, fun w v hsmall hne => ?_,
    ⟨merged, hmerge, fun v => ?_⟩, _, hholds.words_eq hshares, hascending, fun w => ?_,
    fun hfew => ?_⟩
  · rw [hholds.contains_eq hshares, hholds₀.contains_eq hinitial.isSound.sharesSoundly, hcontains]
  · exact a.insert_isNew w
  · rw [((hholds.insert hsound w hsmall).1).contains_eq (hsound.insert w).sharesSoundly,
      hholds.contains_eq hshares, hothers w v hne]
  · rw [hholdsMerged.contains_eq hsound.merge.sharesSoundly, hholds.contains_eq hshares, hmerged]
  · rw [hmem, hholds.contains_eq hshares]
  · rw [hholds.wordCount, hcount hfew]

/-- Adding `ATE` behind the shared last node of `AT` and `BT` does not add `BTE`. -/
theorem history_behaves_as_set_of_image :
    ∃ g₀ a, Image.decode WordGraph.imageOfTwo = .ok g₀ ∧
      (ofGraph g₀).run [.insert [0x41, 0x54, 0x45], .merge] = some a ∧
      a.contains [0x41, 0x54, 0x45] = true ∧ a.contains [0x42, 0x54, 0x45] = false := by
  obtain ⟨g₀, hdecode, hsize, hnone⟩ : ∃ g₀, Image.decode WordGraph.imageOfTwo = .ok g₀ ∧
      g₀.size = 3 ∧ g₀.contains [0x42, 0x54, 0x45] = false := by
    refine ⟨_, rfl, ?_, ?_⟩ <;> decide +kernel
  have hsound := WordGraph.isSound_of_decode hdecode
  have hcells : (ofGraph g₀).cells.size = 3 := Array.size_ofFn.trans hsize
  have hholds := holds_ofGraph hsound.sharesSoundly (hsize ▸ by decide)
  obtain ⟨a, hrun, hcontains, -⟩ :=
    history_behaves_as_set (.inr ⟨WordGraph.imageOfTwo, g₀, hdecode, rfl⟩)
      [.insert [0x41, 0x54, 0x45], .merge] (hholds.keepsRoom hsound (by rw [hcells]; decide))
  refine ⟨g₀, a, hdecode, hrun, (hcontains _).mpr ⟨by decide, .inr (by decide)⟩, ?_⟩
  rw [Bool.eq_false_iff, Ne, hcontains, hholds.contains_eq hsound.sharesSoundly, hnone]
  decide

/-! ## §4 Merged tables -/

/-- **The endings at a place**: what is spelled from it to a place at which a word ends. -/
def endings (a : Arena) (id : UInt32) : Set Word :=
  {w | ∃ last, a.walkFrom id w = some last ∧ (a.cell last).terminal = true}

/-- **The sets of endings that the beginnings of words have.** -/
def endingSets (a : Arena) : Set (Set Word) :=
  {endings | ∃ v, (∃ w, a.contains (v ++ w) = true) ∧ endings = {w | a.contains (v ++ w) = true}}

theorem Holds.endings_place {a : Arena} {g : WordGraph} (h : a.Holds g)
    (hshares : SharesSoundly g.nodes g.size) {n : Node} (hn : n ∈ g.nodes) :
    a.endings n.place = n.endings := by
  ext w
  simp only [endings, Node.endings, Set.mem_ofPred_eq, h.walkFrom_place hshares hn]
  constructor
  · rintro ⟨last, hwalk, hterminal⟩
    obtain ⟨m, hm, rfl⟩ := Option.map_eq_some_iff.mp hwalk
    rw [h.cell_place hshares (WordGraph.mem_nodes_of_walk hn hm)] at hterminal
    exact ⟨m, hm, hterminal⟩
  · rintro ⟨m, hm, hterminal⟩
    refine ⟨m.place, by rw [hm]; rfl, ?_⟩
    rw [h.cell_place hshares (WordGraph.mem_nodes_of_walk hn hm)]
    exact hterminal

theorem Holds.endingSets_eq {a : Arena} {g : WordGraph} (h : a.Holds g)
    (hshares : SharesSoundly g.nodes g.size) : a.endingSets = g.endingSets := by
  simp only [endingSets, WordGraph.endingSets, h.contains_eq hshares]

/-- **A merged table is the smallest one for its words**, as long as there were no more nodes than
32 bits tell apart. After any insertions and merges, and one merge more, paths from the root lead to
every place. Two places have the same endings only if they are one. And there are as many places as
there are different sets of endings for the beginnings of words; without words, there is only the
root. -/
theorem history_merged_is_smallest (steps : List GraphStep) (hroom : empty.KeepsRoom steps) :
    ∃ a, empty.run (steps ++ [.merge]) = some a ∧
    (∀ k < a.cells.size, ∃ w id, a.walk w = some id ∧ id.toNat = k) ∧
    (∀ i j : UInt32, i.toNat < a.cells.size → j.toNat < a.cells.size →
      a.endings i = a.endings j → i = j) ∧
    a.cells.size = if a.words = some [] then 1 else a.endingSets.ncard := by
  obtain ⟨before, hrun, hbefore⟩ := holds_empty.run WordGraph.isSound_empty steps hroom
  have hsoundBefore := WordGraph.isSound_empty.run steps
  obtain ⟨a, hmerge, h⟩ := hbefore.merge hsoundBefore
  have hshares := hsoundBefore.merge.sharesSoundly
  obtain ⟨hreached, hapart, hsize⟩ := WordGraph.size_merge_run steps
  -- Each number below the size is that of a node reached, whose place holds it unwrapped.
  have hplace {k : Nat} (hk : k < a.cells.size) :
      ∃ w n, (WordGraph.empty.run steps).merge.walk w = some n ∧ n.mark.number = k ∧
        n ∈ (WordGraph.empty.run steps).merge.nodes ∧ n.place.toNat = k := by
    obtain ⟨w, n, hwalk, hnumber⟩ := (hreached k).mp (h.size ▸ hk)
    have hn := WordGraph.mem_nodes_of_walk (WordGraph.root_mem_nodes _) hwalk
    exact ⟨w, n, hwalk, hnumber, hn, (Node.toNat_place (h.number_lt hshares hn)).trans hnumber⟩
  refine ⟨a, ?_, ?_, ?_, ?_⟩
  · rw [Arena.run, List.foldlM_append, ← Arena.run, hrun]
    simpa [perform] using hmerge
  · intro k hk
    obtain ⟨w, n, hwalk, -, -, hnumber⟩ := hplace hk
    exact ⟨w, n.place, by rw [h.walk_eq hshares, hwalk]; rfl, hnumber⟩
  · intro i j hi hj heq
    obtain ⟨v, n, hv, hnumber, hn, hi⟩ := hplace hi
    obtain ⟨w, m, hw, hnumber', hm, hj⟩ := hplace hj
    obtain rfl := UInt32.toNat_inj.mp hi
    obtain rfl := UInt32.toNat_inj.mp hj
    rw [h.endings_place hshares hn, h.endings_place hshares hm] at heq
    rw [Node.place, Node.place, (hapart v w n m hv hw).mp heq]
  · rw [h.size, hsize, h.words_eq hshares, h.endingSets_eq hshares]
    simp

/-- The merged table for `AT` and `BT` has as many places as there are sets of endings. -/
theorem history_merged_of_two :
    ∃ a, empty.run [.insert [0x41, 0x54], .insert [0x42, 0x54], .merge] = some a ∧
      (∀ k < a.cells.size, ∃ w id, a.walk w = some id ∧ id.toNat = k) ∧
      a.cells.size = if a.words = some [] then 1 else a.endingSets.ncard := by
  obtain ⟨a, hrun, hreached, -, hsize⟩ :=
    history_merged_is_smallest [.insert [0x41, 0x54], .insert [0x42, 0x54]]
      (holds_empty.keepsRoom WordGraph.isSound_empty (by decide))
  exact ⟨a, hrun, hreached, hsize⟩

/-! ## §5 A place taken twice -/

/-- The letter `A` so many times. -/
def letters (n : Nat) : Word := List.replicate n 0x41

/-- **The first nodes of the table form a chain**, each with one link to the place behind it, of
which 32 bits are kept. -/
def IsChain (a : Arena) (length : Nat) : Prop :=
  ∀ i < length, ∃ c, a.cells[i]? = some c ∧ c.links = [⟨0x41, UInt32.ofNat (i + 1)⟩]

/-- One letter more makes the chain longer by one. -/
theorem IsChain.descend {a : Arena} {k : Nat} (h : a.IsChain k) (hsize : a.cells.size = k + 1)
    (hlast : a.cells[k]? = some {}) (hk : k < maxCells) :
    (a.descend (UInt32.ofNat k) 0x41).1.IsChain (k + 1) ∧
    (a.descend (UInt32.ofNat k) 0x41).1.cells.size = k + 2 ∧
    (a.descend (UInt32.ofNat k) 0x41).1.cells[k + 1]? = some {} ∧
    (a.descend (UInt32.ofNat k) 0x41).2 = UInt32.ofNat (k + 1) := by
  have hplace : (UInt32.ofNat k).toNat = k := UInt32.toNat_ofNat_of_lt' hk
  have hcell : a.cell (UInt32.ofNat k) = {} := by
    rw [cell, hplace, Array.getD_eq_getD_getElem?, hlast, Option.getD_some]
  have hreach : a.reach (UInt32.ofNat k) 0x41 = a.push {} := by
    rw [reach, hcell]
    rfl
  -- The cell of the node gets its link, and the one behind it is new.
  have hcells (i : Nat) : (a.descend (UInt32.ofNat k) 0x41).1.cells[i]? =
      if k = i then some { links := [⟨0x41, UInt32.ofNat (k + 1)⟩] }
      else if i = k + 1 then some {} else a.cells[i]? := by
    rw [descend_eq, hreach, change, hplace, Array.getElem?_modify]
    by_cases hi : k = i
    · subst hi
      rw [if_pos rfl, if_pos rfl, getElem?_push, if_neg (by omega), hlast]
      simp [push, putLink, hsize]
    · rw [if_neg hi, if_neg hi, getElem?_push, hsize]
  refine ⟨fun i hi => ?_, ?_, ?_, ?_⟩
  · rw [hcells]
    rcases Nat.lt_succ_iff_lt_or_eq.mp hi with hi | rfl
    · rw [if_neg (by omega), if_neg (by omega)]
      exact h i hi
    · exact ⟨_, if_pos rfl, rfl⟩
  · rw [descend_eq, hreach, size_change, size_push, hsize]
  · rw [hcells, if_neg (by omega), if_pos rfl]
  · rw [descend_eq, hreach, push, hsize]

/-- **Spelling on to the last place and beyond**: the word ends at the first place again. -/
theorem IsChain.spell {a : Arena} {k n : Nat} (h : a.IsChain k) (hsize : a.cells.size = k + 1)
    (hlast : a.cells[k]? = some {}) (hn : k + n = maxCells) :
    (a.spell (UInt32.ofNat k) (letters n)).IsChain maxCells ∧
    (a.spell (UInt32.ofNat k) (letters n)).cells.size = maxCells + 1 ∧
    ((a.spell (UInt32.ofNat k) (letters n)).cell 0).terminal = true := by
  induction n generalizing a k with
  | zero =>
    -- The place behind the last one is wrapped to 0, so the first cell is marked as a word.
    obtain rfl : k = maxCells := hn
    have hzero : UInt32.ofNat maxCells = 0 := rfl
    have hcells (i : Nat) : (a.spell (UInt32.ofNat maxCells) (letters 0)).cells[i]? =
        if 0 = i then (a.cells[i]?).map fun c => { c with terminal := true } else a.cells[i]? := by
      rw [hzero]
      exact Array.getElem?_modify
    refine ⟨fun i hi => ?_, (size_change ..).trans hsize, ?_⟩
    · obtain ⟨c, hc, hlinks⟩ := h i hi
      rw [hcells, hc]
      split
      · exact ⟨_, rfl, hlinks⟩
      · exact ⟨c, rfl, hlinks⟩
    · obtain ⟨c, hc, -⟩ := h 0 (by decide)
      have hfirst := hcells 0
      rw [if_pos rfl, hc] at hfirst
      rw [cell, Array.getD_eq_getD_getElem?]
      simp [hfirst]
  | succ n ih =>
    obtain ⟨hchain, hsize', hlast', hplace⟩ := h.descend hsize hlast (by omega)
    have hspell : a.spell (UInt32.ofNat k) (letters (n + 1)) =
        (a.descend (UInt32.ofNat k) 0x41).1.spell (UInt32.ofNat (k + 1)) (letters n) := by
      rw [← hplace]
      rfl
    rw [hspell]
    exact ih hchain hsize' hlast' (by omega)

section Chain

variable {a : Arena} (h : a.IsChain maxCells)

include h

/-- Whatever number is cut to 32 bits, the place leads to the next one. -/
theorem IsChain.links_cell (i : Nat) :
    (a.cell (UInt32.ofNat i)).links = [⟨0x41, UInt32.ofNat (i + 1)⟩] := by
  have hlt : i % maxCells < maxCells := Nat.mod_lt _ (by decide)
  have hplace : (UInt32.ofNat i).toNat = i % maxCells := UInt32.toNat_ofNat'
  have hnext : UInt32.ofNat (i % maxCells + 1) = UInt32.ofNat (i + 1) := by
    rw [← UInt32.toNat_inj, UInt32.toNat_ofNat', UInt32.toNat_ofNat']
    exact Nat.mod_add_mod i maxCells 1
  obtain ⟨c, hc, hlinks⟩ := h _ hlt
  rw [cell, hplace, Array.getD_eq_getD_getElem?, hc, Option.getD_some, hlinks, hnext]

/-- A path has no end. -/
theorem IsChain.walkFrom (i n : Nat) :
    a.walkFrom (UInt32.ofNat i) (letters n) = some (UInt32.ofNat (i + n)) := by
  induction n generalizing i with
  | zero => rfl
  | succ n ih =>
    have hstep : (a.cell (UInt32.ofNat i)).target? 0x41 = some (UInt32.ofNat (i + 1)) := by
      simp [NodeCell.target?, h.links_cell i]
    rw [letters, List.replicate_succ, Arena.walkFrom, List.foldlM_cons, hstep]
    have hrest := ih (i + 1)
    rw [Nat.add_right_comm] at hrest
    exact hrest

/-- **Nothing is kept before what is below it**, and something always is. -/
theorem IsChain.mergeFrom (size depth i : Nat) :
    a.mergeFrom depth (UInt32.ofNat i) ⟨Array.replicate size unvisited, ∅, #[]⟩ = none := by
  induction depth generalizing i with
  | zero => rfl
  | succ depth ih =>
    have hunvisited : (Array.replicate size unvisited).getD (UInt32.ofNat i).toNat unvisited =
        unvisited := by
      rw [Array.getD_eq_getD_getElem?, Array.getElem?_replicate]
      split <;> rfl
    rw [Arena.mergeFrom, hunvisited, if_neg (fun hne => hne rfl), h.links_cell i, mergeLinks, ih]
    rfl

end Chain

/-- The table after a word of as many letters as 32 bits tell places apart. -/
theorem isChain_insert {n : Nat} (hn : n = maxCells) :
    (empty.insert (letters n)).1.IsChain maxCells ∧
    (empty.insert (letters n)).1.cells.size = maxCells + 1 ∧
    ((empty.insert (letters n)).1.cell 0).terminal = true ∧
    (empty.insert (letters n)).1.root = 0 := by
  obtain ⟨m, rfl⟩ : ∃ m, n = m + 1 := ⟨n - 1, by rw [hn]; rfl⟩
  have hinsert : empty.insert (letters (m + 1)) =
      (⟨(empty.spell 0 (letters (m + 1))).cells, 0, 1⟩, true) := rfl
  have hstart : empty.IsChain 0 := fun i hi => absurd hi (Nat.not_lt_zero i)
  obtain ⟨hchain, hsize, hterminal⟩ := hstart.spell (n := m + 1) rfl rfl (by omega)
  rw [hinsert]
  exact ⟨hchain, hsize, hterminal, rfl⟩

/-- **A word that was never added**: with one node more than 32 bits tell apart, the last node is
the root as well, and the path goes on from there. -/
theorem contains_word_never_added :
    ∃ a, empty.run [.insert (letters maxCells)] = some a ∧ a.cells.size = maxCells + 1 ∧
      a.contains (letters (2 * maxCells)) = true ∧
      empty.contains (letters (2 * maxCells)) = false ∧
      letters (2 * maxCells) ≠ letters maxCells := by
  -- The number of letters is never written out.
  obtain ⟨n, hn⟩ : ∃ n, n = maxCells := ⟨_, rfl⟩
  obtain ⟨hchain, hsize, hterminal, hroot⟩ := isChain_insert hn
  have hpos : 0 < n := hn ▸ (by decide : 0 < maxCells)
  have hagain : UInt32.ofNat (0 + 2 * n) = 0 := by
    rw [hn]
    rfl
  rw [← hn] at hsize ⊢
  obtain ⟨m, hm⟩ : ∃ m, 2 * n = m + 1 := ⟨2 * n - 1, by omega⟩
  refine ⟨(empty.insert (letters n)).1, rfl, hsize, ?_, ?_, ?_⟩
  · have hwalk := hchain.walkFrom 0 (2 * n)
    rw [hagain] at hwalk
    have hne : (letters (2 * n)).isEmpty = false := by
      rw [hm]
      rfl
    rw [contains, walk, hroot, hne]
    exact congrArg (Option.any _) hwalk |>.trans hterminal
  · rw [hm]
    rfl
  · intro heq
    have hlength := congrArg List.length heq
    simp only [letters, List.length_replicate] at hlength
    omega

/-- **Merging that does not end**: the path from the root leads back to it. -/
theorem merge_without_end :
    ∃ a, empty.run [.insert (letters maxCells)] = some a ∧ a.cells.size = maxCells + 1 ∧
      empty.run ([.insert (letters maxCells)] ++ [.merge]) = none := by
  obtain ⟨n, hn⟩ : ∃ n, n = maxCells := ⟨_, rfl⟩
  obtain ⟨hchain, hsize, -, hroot⟩ := isChain_insert hn
  rw [← hn] at hsize ⊢
  refine ⟨_, rfl, hsize, ?_⟩
  have hmerge : (empty.insert (letters n)).1.merge = none := by
    have hnone := hchain.mergeFrom (n + 1) (n + 1) 0
    rw [merge, hsize, hroot]
    exact congrArg (Option.bind · _) hnone
  simp [run, perform, hmerge]

end Arena

end WordStudy
