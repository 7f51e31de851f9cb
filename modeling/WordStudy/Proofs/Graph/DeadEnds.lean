import WordStudy.Proofs.Graph.Discovery
import WordStudy.Proofs.Graph.RoundTrip

/-!
# Dead ends

An image may lead to **dead ends**: nodes without edges at which no word ends. They are no words, but
they are read, kept and written like all other nodes. All of them are one node, which is met along
the first path to it. So a graph with short words is written and refused by the reader if it has
dead ends and all of them are too deep. How deep the first one lies may change when a word is added:
the path to it is copied and goes on to a word, and what is left are the deeper ones.
-/

namespace WordStudy

open Text

namespace Edges

/-! ## §1 Paths to dead ends -/

/-- The letters on each path to a dead end. -/
def deadEnds : Edges → List Word
  | nil => []
  | edge l m below others =>
    (if m.terminal = false ∧ below.letters = [] then [[l]] else below.deadEnds.map (l :: ·)) ++
      others.deadEnds

theorem mem_deadEnds_edge {l : UInt8} {m : Mark} {below others : Edges} {w : Word} :
    w ∈ (edge l m below others).deadEnds ↔
      (m.terminal = false ∧ below = nil ∧ w = [l]) ∨ (∃ v ∈ below.deadEnds, l :: v = w) ∨
        w ∈ others.deadEnds := by
  rw [deadEnds, List.mem_append, ← or_assoc]
  apply or_congr_left
  cases below with
  | nil => cases hend : m.terminal <;> simp [deadEnds]
  | edge k n below next => simp

end Edges

namespace Image

variable {table : Array Nat} {run : Nat}

/-- **A path to a dead end** has the letters of `w`. -/
def EndsDead (table : Array Nat) (run : Nat) (w : Word) : Prop :=
  ∃ path, path ≠ [] ∧ IsPath table run path ∧ path.map letterOf = w ∧
    pathEnd (run, false) path = (0, false)

theorem endsDead_iff {w : Word} :
    EndsDead table run w ↔ ∃ entry, IsEdge table run entry ∧
      ((runOf entry = 0 ∧ isTerminal entry = false ∧ w = [letterOf entry]) ∨
        ∃ v, EndsDead table (runOf entry) v ∧ letterOf entry :: v = w) := by
  constructor
  · rintro ⟨path, hne, hpath, rfl, hend⟩
    cases hpath with
    | nil => exact absurd rfl hne
    | @cons _ entry path hedge hpath =>
      refine ⟨entry, hedge, ?_⟩
      by_cases hlast : path = []
      · subst hlast
        obtain ⟨hrun, hterminal⟩ := Prod.mk.inj hend
        exact .inl ⟨hrun, hterminal, rfl⟩
      · refine .inr ⟨path.map letterOf, ⟨path, hlast, hpath, rfl, ?_⟩, rfl⟩
        -- Where a path with entries ends depends on the last one only.
        obtain ⟨next, rest, rfl⟩ := List.exists_cons_of_ne_nil hlast
        exact hend
  · rintro ⟨entry, hedge, ⟨hrun, hterminal, rfl⟩ | ⟨v, ⟨path, hne, hpath, rfl, hend⟩, rfl⟩⟩
    · exact ⟨[entry], by simp, .cons hedge .nil, rfl, Prod.ext hrun hterminal⟩
    · obtain ⟨next, rest, rfl⟩ := List.exists_cons_of_ne_nil hne
      exact ⟨entry :: next :: rest, by simp, .cons hedge hpath, rfl, hend⟩

/-- **What unfolds has the dead ends of the tree**, if marks say where words end. -/
theorem Unfolds.mem_deadEnds_iff {named : Nat → Bool → Mark → Prop} {e : Edges}
    (h : Unfolds table named run e)
    (hnamed : ∀ run terminal m, named run terminal m → m.terminal = terminal) (w : Word) :
    w ∈ e.deadEnds ↔ EndsDead table run w := by
  induction h generalizing w with
  | none =>
    rw [endsDead_iff]
    simp [Edges.deadEnds, not_isEdge_zero]
  | last hplace hfirst _ hlast hmark hbelow ih =>
    rw [Edges.mem_deadEnds_edge, endsDead_iff, hnamed _ _ _ hmark, hbelow.eq_nil_iff]
    simp only [IsEdge, inRun_of_last hfirst hlast, ih, Edges.deadEnds]
    grind
  | more hplace hfirst _ hlast _ _ hmark hbelow _ ihBelow ihOthers =>
    rw [Edges.mem_deadEnds_edge, endsDead_iff, hnamed _ _ _ hmark, hbelow.eq_nil_iff, ihOthers,
      endsDead_iff]
    simp only [IsEdge, inRun_of_more hfirst hlast, ihBelow]
    grind

/-! ## §2 Reading -/

/-- **A first dead end that is too deep** keeps a graph that was written from being read. -/
theorem decode_of_dead_end {g : WordGraph} (hsound : g.IsSound) (hupper : g.root.edges.Upper)
    {bytes : List UInt8} (hencode : encode g = .ok bytes) {w : Word}
    (hdead : w ∈ g.root.edges.deadEnds)
    (hleast : ∀ v ∈ g.root.edges.deadEnds, Word.order v w ≠ .lt) (hlong : maxDepth < w.length) :
    decode bytes = .error .tooDeep := by
  obtain ⟨layout, placed, hlayout, himage, hunfolds⟩ :=
    exists_unfolds_of_encode hsound hupper hencode
  have hends := hunfolds.mem_deadEnds_iff fun _ _ _ ⟨_, _, _, _, hterminal⟩ => hterminal
  obtain ⟨path, hne, hpath, rfl, hend⟩ := (hends w).mp hdead
  -- The path is the first one to the node of all dead ends, for the root is no dead end.
  have hfirst : IsFirst (entriesFor layout g).toArray (rootRun (entriesFor layout g).toArray, false)
      path := by
    refine ⟨hpath, fun other hother hsame => ?_⟩
    have hrun : rootRun (entriesFor layout g).toArray ≠ 0 := by
      cases hpath with
      | nil => exact absurd rfl hne
      | cons hedge _ => exact hedge.1
    refine hleast _ ((hends _).mpr ⟨other, ?_, hother, rfl, hsame.trans hend⟩)
    rintro rfl
    exact hrun (congrArg Prod.fst (hsame.trans hend))
  rcases decode_of_first_paths himage hunfolds.isWellFormed with ⟨-, hshort⟩ | ⟨hdeep, -⟩
  · have := hshort path hfirst
    rw [List.length_map] at hlong
    exact absurd this (Nat.not_le_of_lt hlong)
  · exact hdeep

/-- An image of no words: `A` leads to a dead end behind one more edge, and so does `B` behind 63
more edges. -/
def imageOfDeadEnd : List UInt8 :=
  let chain := (List.range 62).map fun i => entryOf 0x42 false true (i + 5)
  let table := [0x400, entryOf 0x41 false false 3, entryOf 0x42 false true 4,
    entryOf 0x54 false true 0] ++ chain ++ [entryOf 0x42 false true 3]
  magic ++ wordBytes table.length ++ table.flatMap wordBytes

end Image

end WordStudy
