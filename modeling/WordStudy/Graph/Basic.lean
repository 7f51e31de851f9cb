import WordStudy.Word.Basic

/-!
# The word graph

A vocabulary is kept as a graph in which words that begin alike share their first nodes and,
once the graph is **merged**, words that end alike share their last ones. The graph is a tree
value whose nodes carry numbers: equal numbers mean that the subtrees are one shared node.
The edges of a node are a list, in ascending order of their letters.

- A **frozen** node may be reached by several edges, so it is never changed; an unfrozen node
  has one edge leading to it.
- `size` counts the nodes made since the last merge and is the next free number.
-/

namespace WordStudy

/-- What a node is apart from its edges. -/
structure Mark where
  number : Nat
  /-- A word ends here. -/
  terminal : Bool
  frozen : Bool
  deriving DecidableEq, Repr

/-- The edges of a node: each has a letter and leads to a node, of which it holds the mark
and the edges `below`. -/
inductive Edges where
  | nil
  | edge (letter : UInt8) (mark : Mark) (below : Edges) (others : Edges)
  deriving Repr

/-- A node of the graph. -/
structure Node where
  mark : Mark
  edges : Edges
  deriving Repr

/-- A vocabulary as a graph. -/
structure WordGraph where
  root : Node
  size : Nat
  wordCount : Nat
  deriving Repr

namespace Edges

/-! ## §1 Views -/

/-- The letters and the nodes that the edges lead to. -/
def toList : Edges → List (UInt8 × Node)
  | nil => []
  | edge l m below others => (l, ⟨m, below⟩) :: others.toList

def targets (e : Edges) : List Node := e.toList.map (·.2)

def letters (e : Edges) : List UInt8 := e.toList.map (·.1)

/-- The number of edges of the tree, each shared node counted at every place. -/
def weight : Edges → Nat
  | nil => 0
  | edge _ _ below others => 1 + below.weight + others.weight

/-- The node behind the edge with a letter. -/
def child? (l : UInt8) : Edges → Option Node
  | nil => none
  | edge k m below others => if k = l then some ⟨m, below⟩ else others.child? l

/-- All words spelled along the edges, in the order of their bytes. -/
def words : Edges → List Word
  | nil => []
  | edge l m below others =>
    let longer := below.words.map (l :: ·)
    (if m.terminal then [l] :: longer else longer) ++ others.words

/-- Go through the words spelled along the edges, in the order of their bytes, without a list of them.
Before the edges stand the letters of a path, the last one first. -/
def foldWords {α : Type} (f : α → Word → α) (path : Word) : Edges → α → α
  | nil, a => a
  | edge l m below others, a =>
    let reached := if m.terminal then f a (l :: path).reverse else a
    others.foldWords f path (below.foldWords f (l :: path) reached)

/-- Going through the words is a fold over their list. -/
theorem foldWords_eq {α : Type} (f : α → Word → α) (path : Word) (e : Edges) (a : α) :
    e.foldWords f path a = (e.words.map (path.reverse ++ ·)).foldl f a := by
  induction e generalizing path a with
  | nil => rfl
  | edge l m below others ihBelow ihOthers =>
    -- A word below goes on where the path and the letter end.
    rw [foldWords, ihOthers, ihBelow, words, List.map_append, List.foldl_append]
    congr 1
    cases m.terminal <;> simp [List.foldl_map, Function.comp_def]

end Edges

/-- The node reached by spelling `w`. -/
def Node.walk : Node → Word → Option Node
  | node, [] => some node
  | node, l :: w => (node.edges.child? l).bind (·.walk w)

namespace WordGraph

def empty : WordGraph where
  root := ⟨⟨0, false, false⟩, .nil⟩
  size := 1
  wordCount := 0

/-- The node reached by spelling `w` from the root. -/
def walk (g : WordGraph) (w : Word) : Option Node := g.root.walk w

/-- The graph has the word; the empty word is never one. -/
def contains (g : WordGraph) (w : Word) : Bool :=
  !w.isEmpty && (g.walk w).any (·.mark.terminal)

/-- All words in the order of their bytes. -/
def words (g : WordGraph) : List Word := g.root.edges.words

/-- Go through all words in the order of their bytes. -/
def foldWords {α : Type} (f : α → Word → α) (g : WordGraph) (a : α) : α :=
  g.root.edges.foldWords f [] a

theorem foldWords_eq {α : Type} (f : α → Word → α) (g : WordGraph) (a : α) :
    g.foldWords f a = g.words.foldl f a := by
  rw [foldWords, Edges.foldWords_eq, List.reverse_nil]
  simp [words]

def isEmpty (g : WordGraph) : Bool := g.wordCount == 0

end WordGraph

end WordStudy
