import WordStudy.Graph.Basic
import WordStudy.Text.Hex

/-!
# The image of a graph

A graph is written as the four bytes `DAWG`, the number of entries, and the entries, each a
number of 32 bits with its low byte first. Entry 0 leads to the **run** of the root. A run
lists the edges of one node, one entry each:

- bits 0–7: the letter;
- bit 8: a word ends at the node that the edge leads to;
- bit 9: the last edge of the run;
- bits 10–31: the first entry of the run of that node, 0 if it has no edges.

Runs are laid out breadth first, so that the run of the root comes first.
-/

namespace WordStudy

/-- Why a byte string is no image, or a graph has none. -/
inductive ImageFault where
  | wrongChecksum (expected found : BitVec 16)
  | tooManyEdges
  | noHeader
  | wrongSize (entries bytes : Nat)
  | outOfRange (entry : Nat)
  | cycle (run : Nat)
  | badLetter (entry : Nat)
  | tooDeep
  deriving DecidableEq, Repr

namespace Image

/-! ## §1 The format -/

def magic : List UInt8 := [0x44, 0x41, 0x57, 0x47]

/-- The number of entries that 22 bits can tell apart. -/
def maxEntries : Nat := 0x400000

/-- The longest word that is read from an image. -/
def maxDepth : Nat := 64

/-- A number of 32 bits as four bytes, the low one first. -/
def wordBytes (n : Nat) : List UInt8 :=
  [UInt8.ofNat n, UInt8.ofNat (n / 0x100), UInt8.ofNat (n / 0x10000), UInt8.ofNat (n / 0x1000000)]

/-- The numbers of 32 bits that a byte string is made of; up to three bytes at the end are
left over. -/
def wordsOf : List UInt8 → List Nat
  | a :: b :: c :: d :: rest =>
    (a.toNat + b.toNat * 0x100 + c.toNat * 0x10000 + d.toNat * 0x1000000) :: wordsOf rest
  | _ => []

/-- The number at a place of a byte string, counted in numbers of 32 bits. -/
def wordAt? (bytes : List UInt8) (index : Nat) : Option Nat := (wordsOf (bytes.drop (4 * index)))[0]?

def entryOf (letter : UInt8) (terminal last : Bool) (run : Nat) : Nat :=
  letter.toNat + terminal.toNat * 0x100 + last.toNat * 0x200 + run * 0x400

def letterOf (entry : Nat) : UInt8 := UInt8.ofNat entry

/-- A word ends at the node that the edge leads to. -/
def isTerminal (entry : Nat) : Bool := entry.testBit 8

def isLast (entry : Nat) : Bool := entry.testBit 9

/-- The run of the node that the edge leads to. -/
def runOf (entry : Nat) : Nat := entry / 0x400

/-! ## §2 Laying out runs -/

/-- The runs laid out so far. -/
structure Layout where
  /-- The first entry of each run, by the number of its node. -/
  runs : Std.TreeMap Nat Nat
  /-- The edges of the nodes laid out, the last one first. -/
  order : List Edges
  /-- The next free entry. -/
  next : Nat

namespace Layout

/-- No run was laid out; entry 0 is taken. -/
def start : Layout := ⟨∅, [], 1⟩

/-- The run of a node, 0 if it has none. -/
def runFor (layout : Layout) (node : Node) : Nat := layout.runs[node.mark.number]?.getD 0

def add (layout : Layout) (node : Node) : Layout :=
  ⟨layout.runs.insert node.mark.number layout.next, node.edges :: layout.order,
    layout.next + node.edges.letters.length⟩

end Layout

/-- The weight of waiting nodes, which falls with each node that is laid out. -/
def waitingWeight : List Node → Nat
  | [] => 0
  | node :: rest => 1 + node.edges.weight + waitingWeight rest

/-- Helper: the nodes below a node weigh as much as its edges. -/
theorem waitingWeight_targets (e : Edges) : waitingWeight e.targets = e.weight := by
  induction e with
  | nil => rfl
  | edge l m below others _ ih =>
    simp only [Edges.targets, Edges.toList, List.map_cons, waitingWeight, Edges.weight] at ih ⊢
    omega

/-- Helper: weights of two queues add up. -/
theorem waitingWeight_append (xs ys : List Node) :
    waitingWeight (xs ++ ys) = waitingWeight xs + waitingWeight ys := by
  induction xs with
  | nil => simp [waitingWeight]
  | cons x xs ih =>
    simp only [List.cons_append, waitingWeight, ih]
    omega

/-- Helper: the weight does not depend on the order. -/
theorem waitingWeight_reverse (xs : List Node) : waitingWeight xs.reverse = waitingWeight xs := by
  induction xs with
  | nil => rfl
  | cons x xs ih =>
    rw [List.reverse_cons, waitingWeight_append, ih]
    simp only [waitingWeight]
    omega

/-- Lay out the nodes of a queue, and those below them behind it. The end of the queue is
kept in reverse. A node without edges, or laid out before, is passed over. -/
def layOut : List Node → List Node → Layout → Except ImageFault Layout
  | [], [], layout => .ok layout
  -- What was put behind is taken up in its order once the front is empty.
  | [], node :: back, layout => layOut (node :: back).reverse [] layout
  | ⟨_, .nil⟩ :: front, back, layout => layOut front back layout
  | ⟨m, .edge l k below others⟩ :: front, back, layout =>
    -- A node is laid out once, however many edges lead to it.
    if layout.runs.contains m.number then layOut front back layout
    else
      let edges := Edges.edge l k below others
      let layout := layout.add ⟨m, edges⟩
      -- The table is bounded, since an entry has 22 bits for a place.
      if maxEntries < layout.next then .error .tooManyEdges
      else layOut front (edges.targets.reverse ++ back) layout
  termination_by front back => (waitingWeight front + waitingWeight back, back.length)
  decreasing_by
    all_goals simp_wf
    · rw [Prod.lex_def]
      right
      rw [waitingWeight_append, waitingWeight_reverse]
      simp only [waitingWeight]
      omega
    · rw [Prod.lex_def]
      left
      simp only [waitingWeight]
      omega
    · rw [Prod.lex_def]
      left
      simp only [waitingWeight]
      omega
    · rw [Prod.lex_def]
      left
      rw [waitingWeight_append, waitingWeight_reverse, waitingWeight_targets]
      simp only [waitingWeight]
      omega

/-! ## §3 Writing -/

/-- The entries of one run. -/
def runEntries (layout : Layout) : Edges → List Nat
  | .nil => []
  | .edge l m below others =>
    let last := match others with
      | .nil => true
      | .edge .. => false
    entryOf l m.terminal last (layout.runFor ⟨m, below⟩) :: runEntries layout others

/-- **The image** of a graph as it is, merged or not. -/
def encode (g : WordGraph) : Except ImageFault (List UInt8) :=
  match layOut [g.root] [] Layout.start with
  | .error fault => .error fault
  | .ok layout =>
    let entries := layout.runFor g.root * 0x400 :: layout.order.reverse.flatMap (runEntries layout)
    .ok (magic ++ wordBytes layout.next ++ entries.flatMap wordBytes)

end Image

/-- The fault in words. -/
def ImageFault.message : ImageFault → String
  | .wrongChecksum expected found =>
    s!"checksum mismatch: expected {Text.hex16 expected}, found {Text.hex16 found}"
  | .tooManyEdges => s!"graph needs more than {Image.maxEntries - 1} edges"
  | .noHeader => "missing DAWG header"
  | .wrongSize entries bytes => s!"expected {entries} edges, found {bytes} bytes"
  | .outOfRange entry => s!"edge {entry} out of range"
  | .cycle run => s!"cycle through edge {run}"
  | .badLetter entry => s!"bad letter at edge {entry}"
  | .tooDeep => s!"word longer than {Image.maxDepth} letters"

end WordStudy
