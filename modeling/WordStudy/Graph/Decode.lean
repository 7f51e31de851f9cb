import WordStudy.Graph.Image
import WordStudy.Text.Numeral

/-!
# Reading an image

The nodes of a graph are read from the run of the root on. A node is known by its run and
by whether a word ends there; one that was read before is **not read again** but shared, so
that reading takes time in proportion to the table and not to the words. A run that leads
back to one being read is a cycle, and reading stops at a depth of `maxDepth` edges.
-/

namespace WordStudy

open Text

namespace Image

/-- A node and the number of words that end at it or below it, capped. -/
structure Counted where
  node : Node
  words : Nat

/-- What was read so far. -/
structure Reading where
  /-- The nodes read, by their runs and whether a word ends there. -/
  known : Std.TreeMap Nat Counted
  /-- The runs being read. -/
  active : List Nat
  /-- The number of nodes read. -/
  size : Nat

namespace Reading

def start : Reading := ⟨∅, [], 0⟩

/-- What a node is known by. -/
def key (run : Nat) (terminal : Bool) : Nat := 2 * run + terminal.toNat

/-- A node is read: its edges, and the words below it. It takes the next number and can be
shared from now on. -/
def finish (s : Reading) (run : Nat) (terminal : Bool) (edges : Edges) (below : Nat) :
    Counted × Reading :=
  let counted : Counted :=
    ⟨⟨⟨s.size, terminal, true⟩, edges⟩, min (below + terminal.toNat) maxWord64⟩
  (counted,
    { known := s.known.insert (key run terminal) counted
      active := s.active.erase run
      size := s.size + 1 })

end Reading

/-- Read a run from entry `index` on, of which `left` entries are left in the table. `descend`
reads the node that an edge leads to, and `last` is the letter of the entry before. The
answer has the edges and the number of words along them. -/
def readRun (table : Array Nat)
    (descend : Nat → Bool → Reading → Except ImageFault (Counted × Reading)) :
    Nat → Nat → Option UInt8 → Reading → Except ImageFault ((Edges × Nat) × Reading)
  -- A run goes on up to the end of the table at most.
  | 0, index, _, _ => .error (.outOfRange index)
  | left + 1, index, last, s =>
    match table[index]? with
    | none => .error (.outOfRange index)
    | some entry =>
      -- The letters of a run ascend.
      let letter := letterOf entry
      if !isUpper letter || last.any (letter ≤ ·) then .error (.badLetter index)
      else
        match descend (runOf entry) (isTerminal entry) s with
        | .error fault => .error fault
        | .ok (target, s) =>
          if isLast entry then
            .ok ((.edge letter target.node.mark target.node.edges .nil, target.words), s)
          else
            match readRun table descend left (index + 1) (some letter) s with
            | .error fault => .error fault
            | .ok ((others, words), s) =>
              -- The count of words does not go past the greatest number.
              .ok ((.edge letter target.node.mark target.node.edges others,
                min (target.words + words) maxWord64), s)

/-- Read the node with a run, when at most `depth` edges may lie on a path from here. -/
def readNode (table : Array Nat) :
    Nat → Nat → Bool → Reading → Except ImageFault (Counted × Reading)
  | depth, run, terminal, s =>
    match s.known[Reading.key run terminal]? with
    -- A node that is known is not read again, whatever its depth.
    | some counted => .ok (counted, s)
    | none =>
      match depth with
      | 0 => .error .tooDeep
      | depth + 1 =>
        if run = 0 then .ok (s.finish run terminal .nil 0)
        -- A run that is still being read would lead back to itself.
        else if s.active.contains run then .error (.cycle run)
        else
          match readRun table (readNode table depth) (table.size - run) run none
            { s with active := run :: s.active } with
          | .error fault => .error fault
          | .ok ((edges, words), s) => .ok (s.finish run terminal edges words)

/-- The entries of an image, which follow its header. -/
def entriesOf (bytes : List UInt8) : Except ImageFault (Array Nat) :=
  if bytes.length < 8 || bytes.take 4 != magic then .error .noHeader
  else
    let count := (wordAt? bytes 1).getD 0
    let body := bytes.drop 8
    if count = 0 || body.length ≠ 4 * count then .error (.wrongSize count body.length)
    else .ok (wordsOf body).toArray

/-- **The graph of an image.** All its nodes are frozen. -/
def decode (bytes : List UInt8) : Except ImageFault WordGraph :=
  match entriesOf bytes with
  | .error fault => .error fault
  | .ok table =>
    match readNode table (maxDepth + 1) (runOf (table[0]?.getD 0)) false Reading.start with
    | .error fault => .error fault
    | .ok (root, s) => .ok { root := root.node, size := s.size, wordCount := root.words }

end Image

end WordStudy
