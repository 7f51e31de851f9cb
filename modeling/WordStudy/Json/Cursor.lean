import WordStudy.Text.Utf8

/-!
# Places in a JSON text

A text is read byte by byte from a cursor. The first fault stops reading; it is told with the
**line and the column** of the place, columns counting bytes.
-/

namespace WordStudy.Json

/-- Why a text cannot be read. -/
inductive Fault where
  | endInList
  | endInObject
  | endInText
  | endInValue
  | expectedColon
  | expectedListEnd
  | expectedObjectEnd
  | expectedName
  | expectedValue
  | badEscape
  | badNumber
  | hugeNumber
  | controlCharacter
  | keyNotText
  | loneSurrogate
  | trailingComma
  | trailingText
  | cutSurrogate
  /-- The value is not what was asked for; both are told in words. -/
  | badValue (problem found wanted : String)
  | repeatedField (name : String)
  deriving DecidableEq, Repr

/-- The fault in words. -/
def Fault.message : Fault → String
  | endInList => "EOF while parsing a list"
  | endInObject => "EOF while parsing an object"
  | endInText => "EOF while parsing a string"
  | endInValue => "EOF while parsing a value"
  | expectedColon => "expected `:`"
  | expectedListEnd => "expected `,` or `]`"
  | expectedObjectEnd => "expected `,` or `\x7d`"
  | expectedName => "expected ident"
  | expectedValue => "expected value"
  | badEscape => "invalid escape"
  | badNumber => "invalid number"
  | hugeNumber => "number out of range"
  | controlCharacter => "control character (\\u0000-\\u001F) found while parsing a string"
  | keyNotText => "key must be a string"
  | loneSurrogate => "lone leading surrogate in hex escape"
  | trailingComma => "trailing comma"
  | trailingText => "trailing characters"
  | cutSurrogate => "unexpected end of hex escape"
  | badValue problem found wanted => s!"invalid {problem}: {found}, expected {wanted}"
  | repeatedField name => s!"duplicate field `{name}`"

/-- A fault at a place, given by the number of bytes before it. -/
structure Located where
  fault : Fault
  index : Nat
  deriving DecidableEq, Repr

def lineFeed : UInt8 := 0x0A

/-- The line and the column of a place, that is, the number of line feeds before it and one
more, and the number of bytes since the last one. -/
def position (bytes : List UInt8) (index : Nat) : Nat × Nat :=
  let before := bytes.take index
  (before.count lineFeed + 1, (before.reverse.takeWhile (· ≠ lineFeed)).length)

/-- A fault with the line and the column of its place. -/
structure Placed where
  fault : Fault
  line : Nat
  column : Nat
  deriving DecidableEq, Repr

def Placed.message (p : Placed) : String :=
  s!"{p.fault.message} at line {p.line} column {p.column}"

def Located.place (bytes : List UInt8) (l : Located) : Placed :=
  let (line, column) := position bytes l.index
  ⟨l.fault, line, column⟩

/-- What is left of a text, and the number of bytes before it. -/
structure Cursor where
  rest : List UInt8
  index : Nat

/-- A step of reading. -/
abbrev Reader (α : Type) : Type := StateT Cursor (Except Located) α

namespace Reader

def fail {α : Type} (fault : Fault) : Reader α := fun c => .error ⟨fault, c.index⟩

/-- Fail behind the next byte, or at the end of the text. -/
def failAtNext {α : Type} (fault : Fault) : Reader α := fun c =>
  .error ⟨fault, if c.rest.isEmpty then c.index else c.index + 1⟩

/-- The next byte, which is not taken. -/
def peek : Reader (Option UInt8) := fun c => .ok (c.rest.head?, c)

def skip (n : Nat) : Reader Unit := fun c => .ok ((), ⟨c.rest.drop n, c.index + n⟩)

/-- Take the next byte, if there is one. -/
def next : Reader (Option UInt8) := fun c =>
  match c.rest with
  | [] => .ok (none, c)
  | b :: rest => .ok (some b, ⟨rest, c.index + 1⟩)

/-- Take the bytes from here on that satisfy `p`. -/
def takeWhile (p : UInt8 → Bool) : Reader (List UInt8) := fun c =>
  let taken := c.rest.takeWhile p
  .ok (taken, ⟨c.rest.dropWhile p, c.index + taken.length⟩)

def isSpace (b : UInt8) : Bool := b == 0x20 || b == 0x0A || b == 0x09 || b == 0x0D

/-- Pass over white space; the next byte, which is not taken. -/
def peekPart : Reader (Option UInt8) := do
  let _ ← takeWhile isSpace
  peek

def left : Reader Nat := fun c => .ok (c.rest.length, c)

end Reader

end WordStudy.Json
