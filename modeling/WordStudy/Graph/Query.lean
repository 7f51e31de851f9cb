import WordStudy.Graph.Scan
import WordStudy.Search.Condition

/-!
# Graph queries

The conditions that a walk over the graph can answer: patterns, racks and lengths. Positive
ones are carried along the edges; negated ones are checked on the words found.
-/

namespace WordStudy

/-- What the graph is asked for. -/
structure GraphQuery where
  patterns : List Pattern
  excludedPatterns : List Pattern
  racks : List (Rack × RackMode)
  excludedRacks : List (Rack × RackMode)
  /-- The lengths allowed, `none` if any. -/
  lengths : Option Bounds
  deriving Repr

namespace GraphQuery

/-! ## §1 From conditions -/

def any : GraphQuery := ⟨[], [], [], [], none⟩

/-- Add a pattern, `none` if its text is malformed. -/
def addPattern (q : GraphQuery) (text : String) (negated : Bool) : Option GraphQuery :=
  (Pattern.read text).map fun p =>
    if negated then { q with excludedPatterns := q.excludedPatterns ++ [p] }
    else { q with patterns := q.patterns ++ [p] }

/-- Add a rack, `none` if its text is malformed. -/
def addRack (q : GraphQuery) (letters : String) (mode : RackMode) (negated : Bool) :
    Option GraphQuery :=
  (Rack.read letters).map fun r =>
    if negated then { q with excludedRacks := q.excludedRacks ++ [(r, mode)] }
    else { q with racks := q.racks ++ [(r, mode)] }

/-- Add a range of lengths; ranges that do not meet leave none. -/
def addLengths (q : GraphQuery) (r : Bounds) : GraphQuery :=
  match q.lengths with
  | none => { q with lengths := some r }
  | some s => { q with lengths := some ((s.meet r).getD ⟨1, 0⟩) }

/-- Add a condition, `none` if its text is malformed; one that is not for the graph adds
nothing. -/
def add (q : GraphQuery) : Condition → Option GraphQuery
  | .pattern text negated => q.addPattern text negated
  | .anagram letters negated => q.addRack letters .anagram negated
  | .subanagram letters negated => q.addRack letters .subanagram negated
  | .consist letters lengths negated =>
    q.addRack letters (.consist (max lengths.least 1) lengths.greatest) negated
  | .length r => some (q.addLengths r)
  | _ => some q

/-- **The query of a list of conditions**, `none` if a pattern or rack is malformed. -/
def ofConditions (conditions : List Condition) : Option GraphQuery :=
  conditions.foldlM add any

/-! ## §2 The walk -/

/-- The least length asked for. -/
def minLength (q : GraphQuery) : Nat := (q.lengths.map (·.least)).getD 0

/-- The length that no word may exceed, as asked for. -/
def maxLength? (q : GraphQuery) : Option Nat := q.lengths.map (·.greatest)

/-- The smaller of two upper bounds, `none` being none. -/
def minBound : Option Nat → Option Nat → Option Nat
  | some m, some n => some (min m n)
  | some m, none => some m
  | none, bound => bound

/-- The length behind which no word can be found. -/
def depthLimit (q : GraphQuery) : Option Nat :=
  let patterns := q.patterns.map Pattern.fixedLength?
  let racks := q.racks.map fun (r, mode) => r.maxLength? mode
  (patterns ++ racks).foldl minBound q.maxLength?

/-- The length before which no word can be found. -/
def minDepth (q : GraphQuery) : Nat :=
  (q.patterns.map Pattern.minLength).foldl max (max q.minLength 1)

/-- Where the matchers stand after a part of a word. -/
structure State where
  depth : Nat
  patterns : List Live
  racks : List (List Tiles)

/-- Where the matchers stand before the first letter. -/
def start (q : GraphQuery) : State where
  depth := 0
  patterns := q.patterns.map Pattern.start
  racks := q.racks.map fun (r, _) => [r.start]

/-- One more letter for each matcher, `none` if one of them gives up. -/
def advance {α σ : Type} (step : α → σ → Option σ) : List α → List σ → Option (List σ)
  | a :: as, s :: states =>
    match step a s with
    | none => none
    | some next => (advance step as states).map (next :: ·)
  | _, _ => some []

/-- The state behind one more letter, `none` if the limit is reached or a matcher gives
up. -/
def step (q : GraphQuery) (s : State) (b : UInt8) : Option State :=
  if q.depthLimit.any (· ≤ s.depth) then none
  else
    match advance (fun p live => p.step live b) q.patterns s.patterns with
    | none => none
    | some patterns =>
      (advance (fun (rack : Rack × RackMode) ways => rack.1.step ways b) q.racks s.racks).map
        fun racks => ⟨s.depth + 1, patterns, racks⟩

/-- The word read so far is long enough and every matcher accepts it. -/
def accepts (q : GraphQuery) (s : State) : Bool :=
  q.minDepth ≤ s.depth && s.patterns.all Live.complete &&
    (q.racks.zip s.racks).all fun (rack, ways) => Rack.accepts rack.2 ways s.depth

def scanner (q : GraphQuery) : Scanner State := ⟨q.step, q.accepts⟩

def allows (q : GraphQuery) (w : Word) : Bool :=
  !q.excludedPatterns.any (·.spells w) && !q.excludedRacks.any fun (r, mode) => r.spells mode w

/-- The words along the edges that answer the positive part of the query. A query whose
lengths contradict each other has none. -/
def run (q : GraphQuery) (e : Edges) : List Word :=
  if q.depthLimit.any (· < q.minDepth) then [] else q.scanner.scan e q.start

/-! ## §3 Backwards -/

/-- The query for words spelled backwards. The negated part stays as it is, for it is checked
on words that are spelled forwards again. -/
def reversed (q : GraphQuery) : GraphQuery :=
  { q with patterns := q.patterns.map Pattern.reversed }

/-- Words are better looked for from their ends: no pattern begins with a letter, one ends
with a letter, and there is no rack. -/
def prefersReverse (q : GraphQuery) : Bool :=
  q.racks.isEmpty && q.patterns.all (·.leadingLetters == 0) &&
    q.patterns.any (0 < ·.trailingLetters)

/-! ## §4 Marks -/

/-- Marks of two matchers together: a letter is literal if it is for both. -/
def bothLiteral (marks others : List Bool) : List Bool := marks.zipWith (· && ·) others

/-- For each byte of a word, whether every pattern and every rack spells it literally. -/
def literalLetters (q : GraphQuery) (w : Word) : List Bool :=
  let marks := q.patterns.foldl
    (fun marks p =>
      match p.literalLetters w with
      | some more => bothLiteral marks more
      | none => marks)
    (w.map fun _ => true)
  q.racks.foldl (fun marks (r, _) => bothLiteral marks (r.literalLetters w)) marks

/-- **The word with its wildcards marked**: a byte that is not literal is put in lower case.
Each byte is written as the character of its number. -/
def markWildcards (q : GraphQuery) (w : Word) : Word :=
  (w.zip (q.literalLetters w)).flatMap fun (b, literal) =>
    String.utf8EncodeChar (Char.ofNat (if literal then b else lowerByte b).toNat)

end GraphQuery

end WordStudy
