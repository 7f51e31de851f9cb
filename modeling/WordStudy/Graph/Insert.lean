import WordStudy.Graph.Basic

/-!
# Adding a word

A word is added along the path that spells it. A frozen node on the path is replaced by an
unfrozen copy with a new number **before anything below it changes**, so that no other word
that shares it is affected.
-/

namespace WordStudy

/-- The mark to use for a node that is about to change, and the next free number: a frozen
node gets the number `next`. -/
def Mark.thaw (m : Mark) (next : Nat) : Mark × Nat :=
  if m.frozen then ({ m with number := next, frozen := false }, next + 1) else (m, next)

namespace Edges

/-- An edge to a chain of new nodes that spells `l` and then `w`, in front of `others`. The
nodes take the numbers from `next` on. -/
def chain (l : UInt8) : Word → Nat → Edges → Edges
  | [], next, others => edge l ⟨next, true, false⟩ nil others
  | c :: w, next, others => edge l ⟨next, false, false⟩ (chain c w (next + 1) nil) others

/-- The edges with the word `l :: w` added, and the next free number. -/
def insert : Edges → UInt8 → Word → Nat → Edges × Nat
  | nil, l, w, next => (chain l w next nil, next + (w.length + 1))
  | edge k m below others, l, w, next =>
    -- The letter is new, so that the rest of the word becomes a chain.
    if l < k then (chain l w next (edge k m below others), next + (w.length + 1))
    else if l = k then
      -- The node is about to change, so a frozen one is copied first.
      let (m, next) := m.thaw next
      match w with
      | [] => (edge k { m with terminal := true } below others, next)
      | c :: w =>
        let (below, next) := below.insert c w next
        (edge k m below others, next)
    else
      let (others, next) := others.insert l w next
      (edge k m below others, next)

end Edges

namespace WordGraph

/-- The graph with a word added, and whether the word is new. The empty word is not added. -/
def insert (g : WordGraph) (w : Word) : WordGraph × Bool :=
  match w with
  | [] => (g, false)
  | l :: rest =>
    -- A word that is there makes no copies.
    if g.contains w then (g, false)
    else
      let (mark, next) := g.root.mark.thaw g.size
      let (edges, size) := g.root.edges.insert l rest next
      ({ root := ⟨mark, edges⟩, size, wordCount := g.wordCount + 1 }, true)

end WordGraph

end WordStudy
