import Std.Data.HashMap
import WordStudy.Graph.Basic

/-!
# The table of a word graph

The nodes of a word graph stand in a **table**, and what leads to a node is its place there, in 32
bits: the place of a new node is **cut to 32 bits** once there are more nodes than that. Insertion
changes unfrozen nodes where they stand and puts copies of frozen ones behind all nodes. Merging
builds a new table, in which a node stands behind those that it leads to.
-/

namespace WordStudy

/-- What leads from one node of a table to another. -/
structure Link where
  letter : UInt8
  target : UInt32
  deriving DecidableEq, Hashable, Repr

/-- A node of a table. Its links have ascending letters. -/
structure NodeCell where
  links : List Link := []
  /-- A word ends here. -/
  terminal : Bool := false
  frozen : Bool := false
  deriving DecidableEq, Inhabited, Repr

/-- **A word graph as a table of nodes.** -/
structure Arena where
  cells : Array NodeCell
  root : UInt32
  wordCount : Nat

/-! ## §1 Looking up words -/

/-- Where the link with a letter leads. -/
def NodeCell.target? (l : UInt8) (c : NodeCell) : Option UInt32 :=
  (c.links.find? (·.letter = l)).map (·.target)

namespace Arena

def empty : Arena := ⟨#[{}], 0, 0⟩

def cell (a : Arena) (id : UInt32) : NodeCell := a.cells.getD id.toNat {}

/-- The place that is reached by spelling `w` from another one. -/
def walkFrom (a : Arena) (id : UInt32) (w : Word) : Option UInt32 :=
  w.foldlM (fun id l => (a.cell id).target? l) id

def walk (a : Arena) (w : Word) : Option UInt32 := a.walkFrom a.root w

/-- The table has the word; the empty word is never one. -/
def contains (a : Arena) (w : Word) : Bool :=
  !w.isEmpty && (a.walk w).any fun id => (a.cell id).terminal

/-- The words along links, of which `visit` tells those below a place. -/
def wordsAlong (a : Arena) (visit : UInt32 → Option (List Word)) : List Link → Option (List Word)
  | [] => some []
  | link :: others => do
    let below ← visit link.target
    let rest ← a.wordsAlong visit others
    let longer := below.map (link.letter :: ·)
    return (if (a.cell link.target).terminal then [link.letter] :: longer else longer) ++ rest

/-- The words below a place, from which at most `depth` places may follow each other. -/
def wordsBelow (a : Arena) : Nat → UInt32 → Option (List Word)
  | 0, _ => none
  | depth + 1, id => a.wordsAlong (a.wordsBelow depth) (a.cell id).links

/-- **All words in the order of their bytes.** There is no end to them if more places follow each
other than there are. -/
def words (a : Arena) : Option (List Word) := a.wordsBelow a.cells.size a.root

/-! ## §2 Adding a word -/

def change (a : Arena) (id : UInt32) (f : NodeCell → NodeCell) : Arena :=
  { a with cells := a.cells.modify id.toNat f }

/-- A node is put behind the others. Of its place, 32 bits are kept. -/
def push (a : Arena) (c : NodeCell) : Arena × UInt32 :=
  ({ a with cells := a.cells.push c }, UInt32.ofNat a.cells.size)

/-- The place to use for a node that is about to change: that of a copy, if it is frozen. -/
def thaw (a : Arena) (id : UInt32) : Arena × UInt32 :=
  if (a.cell id).frozen then a.push { a.cell id with frozen := false } else (a, id)

/-- The links with one that leads to `target`, in place of one with the same letter. -/
def putLink (l : UInt8) (target : UInt32) : List Link → List Link
  | [] => [⟨l, target⟩]
  | link :: others =>
    if l < link.letter then ⟨l, target⟩ :: link :: others
    else if l = link.letter then ⟨l, target⟩ :: others
    else link :: putLink l target others

/-- The unfrozen node behind the link with a letter, or a new one. -/
def reach (a : Arena) (current : UInt32) (l : UInt8) : Arena × UInt32 :=
  match (a.cell current).target? l with
  | some target => a.thaw target
  | none => a.push {}

/-- One letter further from an unfrozen node, to a node that is unfrozen as well. -/
def descend (a : Arena) (current : UInt32) (l : UInt8) : Arena × UInt32 :=
  let (a, target) := a.reach current l
  (a.change current fun c => { c with links := putLink l target c.links }, target)

/-- The rest of a word is spelled from an unfrozen node. -/
def spell (a : Arena) (current : UInt32) : Word → Arena
  | [] => a.change current fun c => { c with terminal := true }
  | l :: w =>
    let (a, next) := a.descend current l
    a.spell next w

/-- The table with a word added, and whether the word is new. The empty word is not added. -/
def insert (a : Arena) (w : Word) : Arena × Bool :=
  if w.isEmpty || a.contains w then (a, false)
  else
    let (thawed, root) := a.thaw a.root
    ({ cells := (thawed.spell root w).cells, root, wordCount := a.wordCount + 1 }, true)

/-! ## §3 Merging equal nodes -/

/-- The mark of a place that was not visited. -/
def unvisited : UInt32 := 0xFFFFFFFF

/-- What was found so far while nodes are merged. -/
structure Merged where
  /-- The new place for each old one. -/
  moved : Array UInt32
  /-- The new places by what stands there. -/
  known : Std.HashMap (Bool × List Link) UInt32
  cells : Array NodeCell

/-- The place of a node whose links lead to new places. -/
def Merged.keep (s : Merged) (terminal : Bool) (links : List Link) : UInt32 × Merged :=
  match s.known[(terminal, links)]? with
  | some id => (id, s)
  | none =>
    let id := UInt32.ofNat s.cells.size
    (id, { s with
      known := s.known.insert (terminal, links) id
      cells := s.cells.push ⟨links, terminal, true⟩ })

/-- The links with every target moved. -/
def mergeLinks (visit : UInt32 → Merged → Option (UInt32 × Merged)) :
    List Link → Merged → Option (List Link × Merged)
  | [], s => some ([], s)
  | link :: others, s => do
    let (target, s) ← visit link.target s
    let (others, s) ← mergeLinks visit others s
    return (⟨link.letter, target⟩ :: others, s)

/-- The new place for an old one, from which at most `depth` places may follow each other. A place
that was visited is not visited again. -/
def mergeFrom (a : Arena) : Nat → UInt32 → Merged → Option (UInt32 × Merged)
  | 0, _, _ => none
  | depth + 1, id, s =>
    -- A node that was reached before was moved already.
    let new := s.moved.getD id.toNat unvisited
    if new ≠ unvisited then some (new, s)
    else do
      -- The nodes below are moved first, so that equal ones have one place by then.
      let (links, s) ← mergeLinks (a.mergeFrom depth) (a.cell id).links s
      let (new, s) := s.keep (a.cell id).terminal links
      return (new, { s with moved := s.moved.setIfInBounds id.toNat new })

/-- **The table with all equal nodes merged.** There is no end to merging if more places follow each
other than there are. -/
def merge (a : Arena) : Option Arena := do
  let start : Merged := ⟨Array.replicate a.cells.size unvisited, ∅, #[]⟩
  let (root, s) ← a.mergeFrom a.cells.size a.root start
  return { cells := s.cells, root, wordCount := a.wordCount }

end Arena

end WordStudy
