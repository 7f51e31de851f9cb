/-!
# UTF-8, read leniently

A byte string is read as text one character at a time. Where the bytes do not form a
character, the **longest start of one** that they do form is replaced by a single U+FFFD,
and reading goes on behind it; a byte that cannot start a character is replaced alone.
-/

namespace WordStudy.Text.Utf8

/-- The character that stands for bytes that form none. -/
def replacement : Char := '\uFFFD'

/-- `b` is between `low` and `high`, both included. -/
def within (low high b : UInt8) : Bool := low ≤ b && b ≤ high

/-- A byte that may follow the first two of a character. -/
def isTail (b : UInt8) : Bool := within 0x80 0xBF b

/-- The six low bits of a byte that continues a character. -/
def payload (b : UInt8) : Nat := b.toNat % 0x40

/-- A character of two bytes, or the replacement of its first. -/
def twoBytes (a : UInt8) : List UInt8 → Char × Nat
  | b :: _ => if isTail b then (Char.ofNat (a.toNat % 0x20 * 0x40 + payload b), 1) else (replacement, 0)
  | [] => (replacement, 0)

/-- A character of three bytes whose second lies in `low..high`, or the replacement of the
bytes that could have started one. -/
def threeBytes (a low high : UInt8) : List UInt8 → Char × Nat
  | b :: c :: _ =>
    if !within low high b then (replacement, 0)
    else if !isTail c then (replacement, 1)
    else (Char.ofNat ((a.toNat % 0x10 * 0x40 + payload b) * 0x40 + payload c), 2)
  | [b] => (replacement, if within low high b then 1 else 0)
  | [] => (replacement, 0)

/-- A character of four bytes whose second lies in `low..high`, or the replacement of the
bytes that could have started one. -/
def fourBytes (a low high : UInt8) : List UInt8 → Char × Nat
  | b :: c :: d :: _ =>
    -- A sequence that breaks off is replaced as far as it was well-formed.
    if !within low high b then (replacement, 0)
    else if !isTail c then (replacement, 1)
    else if !isTail d then (replacement, 2)
    else
      (Char.ofNat (((a.toNat % 0x08 * 0x40 + payload b) * 0x40 + payload c) * 0x40 + payload d), 3)
  | [b, c] =>
    (replacement, if !within low high b then 0 else if isTail c then 2 else 1)
  | [b] => (replacement, if within low high b then 1 else 0)
  | [] => (replacement, 0)

/-- The character read at byte `a`, which `rest` follows, and how many bytes of `rest` it
takes along. The second byte is bounded more tightly behind `E0`, `ED`, `F0` and `F4`, so
that overlong forms, surrogates and numbers above U+10FFFF are refused. -/
def characterAt (a : UInt8) (rest : List UInt8) : Char × Nat :=
  if a < 0x80 then (Char.ofNat a.toNat, 0)
  else if within 0xC2 0xDF a then twoBytes a rest
  -- The bounds of the second byte leave out long forms, surrogates and what is too large.
  else if a = 0xE0 then threeBytes a 0xA0 0xBF rest
  else if a = 0xED then threeBytes a 0x80 0x9F rest
  else if within 0xE1 0xEF a then threeBytes a 0x80 0xBF rest
  else if a = 0xF0 then fourBytes a 0x90 0xBF rest
  else if within 0xF1 0xF3 a then fourBytes a 0x80 0xBF rest
  else if a = 0xF4 then fourBytes a 0x80 0x8F rest
  else (replacement, 0)

/-- The characters of a byte string of which the first `skip` bytes were read already. -/
def charactersFrom : Nat → List UInt8 → List Char
  | _, [] => []
  | skip + 1, _ :: rest => charactersFrom skip rest
  | 0, a :: rest =>
    let read := characterAt a rest
    read.1 :: charactersFrom read.2 rest

def characters (bytes : List UInt8) : List Char := charactersFrom 0 bytes

def encode (text : List Char) : List UInt8 := text.flatMap String.utf8EncodeChar

def bytesOf (text : String) : List UInt8 := encode text.toList

def textOf (bytes : List UInt8) : String := String.ofList (characters bytes)

/-- The text of a byte string that is **valid throughout**. -/
def validTextOf? (bytes : List UInt8) : Option String :=
  if encode (characters bytes) = bytes then some (textOf bytes) else none

@[simp] theorem encode_nil : encode [] = [] := rfl

@[simp] theorem encode_cons (c : Char) (text : List Char) :
    encode (c :: text) = String.utf8EncodeChar c ++ encode text := by
  simp [encode]

@[simp] theorem encode_append (s t : List Char) : encode (s ++ t) = encode s ++ encode t := by
  simp [encode]

end WordStudy.Text.Utf8
