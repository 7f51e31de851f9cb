import WordStudy.Json.Cursor
import WordStudy.Text.Decimal
import WordStudy.Text.Numeral
import WordStudy.Text.Quoted

/-!
# Reading JSON

Texts, numbers and names, and values that are passed over. What is passed over is checked less
strictly: its numbers may be of any size, and its escapes need not pair surrogates.
-/

namespace WordStudy.Json

open Text

/-! ## §1 Texts -/

def hexValue (digits : List UInt8) : Option Nat :=
  digits.foldlM (fun value b => (digitValue? 16 (Char.ofNat b.toNat)).map (value * 16 + ·)) 0

/-- The number that an escape `uXXXX` writes; `offset` bytes of it stand before the digits. -/
def hexEscape (offset : Nat) (bytes : List UInt8) : Except (Fault × Nat) Nat :=
  if bytes.length < 4 then .error (.endInText, offset + bytes.length)
  else
    match hexValue (bytes.take 4) with
    | some n => .ok n
    | none => .error (.badEscape, offset + 4)

/-- The bytes of the character that a high surrogate and what follows it write. -/
def surrogatePair (high : Nat) : List UInt8 → Except (Fault × Nat) (List UInt8 × Nat)
  | [] => .error (.endInText, 5)
  | 0x5C :: [] => .error (.endInText, 6)
  | 0x5C :: 0x75 :: rest => do
    let low ← hexEscape 7 rest
    -- The second half must be a low surrogate.
    if low < 0xDC00 || 0xDFFF < low then .error (.loneSurrogate, 11)
    else
      .ok (String.utf8EncodeChar (Char.ofNat ((high - 0xD800) * 0x400 + (low - 0xDC00) + 0x10000)),
        11)
  | 0x5C :: _ :: _ => .error (.cutSurrogate, 7)
  | _ :: _ => .error (.cutSurrogate, 6)

/-- The byte that a short escape writes. -/
def shortEscape? : UInt8 → Option UInt8
  | 0x22 => some 0x22
  | 0x5C => some 0x5C
  | 0x2F => some 0x2F
  | 0x62 => some 0x08
  | 0x66 => some 0x0C
  | 0x6E => some 0x0A
  | 0x72 => some 0x0D
  | 0x74 => some 0x09
  | _ => none

/-- What an escape writes, and how many bytes behind the backslash it takes; a fault comes
with the number of bytes read until then. -/
def escapeAt (strict : Bool) : List UInt8 → Except (Fault × Nat) (List UInt8 × Nat)
  | [] => .error (.endInText, 0)
  | 0x75 :: rest => do
    let n ← hexEscape 1 rest
    if !strict then .ok ([], 5)
    -- A low surrogate cannot come first, and a high one needs the other.
    else if 0xDC00 ≤ n && n ≤ 0xDFFF then .error (.loneSurrogate, 5)
    else if 0xD800 ≤ n && n ≤ 0xDBFF then surrogatePair n (rest.drop 4)
    else .ok (String.utf8EncodeChar (Char.ofNat n), 5)
  | b :: _ =>
    match shortEscape? b with
    | some c => .ok ([c], 1)
    | none => .error (.badEscape, 1)

/-- The bytes of a text up to its closing quote, of which the first `skipped` belong to an
escape. -/
def textFrom (strict : Bool) : Nat → List UInt8 → Nat → Except Located (List UInt8 × Cursor)
  | _, [], index => .error ⟨.endInText, index⟩
  | skipped + 1, _ :: rest, index => textFrom strict skipped rest (index + 1)
  | 0, b :: rest, index =>
    if b = 0x22 then .ok ([], ⟨rest, index + 1⟩)
    else if b = 0x5C then
      match escapeAt strict rest with
      | .error (fault, offset) => .error ⟨fault, index + 1 + offset⟩
      | .ok (written, length) =>
        match textFrom strict length rest (index + 1) with
        | .error fault => .error fault
        | .ok (text, c) => .ok (written ++ text, c)
    -- A bare control character is refused behind it or at it.
    else if b < 0x20 then .error ⟨.controlCharacter, if strict then index + 1 else index⟩
    else
      match textFrom strict 0 rest (index + 1) with
      | .error fault => .error fault
      | .ok (text, c) => .ok (b :: text, c)

/-- Read a text whose opening quote was taken. -/
def readText : Reader String := fun c =>
  (textFrom true 0 c.rest c.index).map fun (text, c) => (Utf8.textOf text, c)

/-- Pass over a text whose opening quote was taken. -/
def passText : Reader Unit := fun c =>
  (textFrom false 0 c.rest c.index).map fun (_, c) => ((), c)

/-! ## §2 Numbers -/

/-- A number as it is written. -/
inductive Number where
  | natural (n : Nat)
  /-- A whole number below zero. -/
  | negative (n : Nat)
  | float (x : Float)

def isDigit (b : UInt8) : Bool := 0x30 ≤ b && b ≤ 0x39

def digitOf (b : UInt8) : Nat := b.toNat - 0x30

/-- Put digits behind a number as long as it stays within 64 bits; the number, and how many
digits were put behind it. -/
def absorb : Nat → List UInt8 → Nat × Nat
  | n, [] => (n, 0)
  | n, b :: rest =>
    if maxWord64 < n * 10 + digitOf b then (n, 0)
    else
      let (n, count) := absorb (n * 10 + digitOf b) rest
      (n, count + 1)

/-- A power of ten up to `10 ^ 308`. -/
def powerOfTen (n : Nat) : Float := Float.ofScientific 1 false n

/-- A number divided by powers of ten, which must be small enough for one step each. -/
def divideByTens : Nat → Float → Nat → Float
  | 0, x, _ => x
  | left + 1, x, n =>
    if n ≤ 308 then x / powerOfTen n
    else if x == 0.0 then x
    else divideByTens left (x / powerOfTen 308) (n - 308)

/-- The float nearest to `n · 10 ^ e` that one step of arithmetic for each `308` powers of ten
gives. -/
def scaled (positive : Bool) (n : Nat) (e : Int) : Reader Number := do
  let x := Float.ofNat n
  let x ←
    if e < 0 then pure (divideByTens ((-e).toNat / 308 + 2) x (-e).toNat)
    else if 308 < e then (if x == 0.0 then pure x else Reader.fail .hugeNumber)
    else
      let y := x * powerOfTen e.toNat
      if y.isInf then Reader.fail .hugeNumber else pure y
  pure (.float (if positive then x else -x))

/-- The largest number of 31 bits. -/
def maxWord31 : Nat := 0x7FFFFFFF

/-- The digits of an exponent whose value is `n` so far, `none` if it gets too large; how many
digits were read. -/
def exponentOf : Nat → List UInt8 → Option Nat × Nat
  | n, [] => (some n, 0)
  | n, b :: rest =>
    if maxWord31 < n * 10 + digitOf b then (none, 1)
    else
      let (value, count) := exponentOf (n * 10 + digitOf b) rest
      (value, count + 1)

/-- Read an exponent at its sign, for a number `n · 10 ^ e`. -/
def readExponent (positive : Bool) (n : Nat) (e : Int) : Reader Number := do
  Reader.skip 1
  let sign ← Reader.peek
  if sign = some 0x2B || sign = some 0x2D then Reader.skip 1
  match ← Reader.next with
  | none => Reader.fail .endInValue
  | some b =>
    if !isDigit b then Reader.fail .badNumber
    else
      -- The exponent may overflow at a later digit, where its reading stops.
      let digits := (← get).rest.takeWhile isDigit
      match exponentOf (digitOf b) digits with
      | (some exponent, count) =>
        Reader.skip count
        scaled positive n (if sign = some 0x2D then e - exponent else e + exponent)
      | (none, count) =>
        Reader.skip count
        -- Zero is zero with any exponent, and so is a number that is made far too small.
        if n ≠ 0 && sign ≠ some 0x2D then Reader.fail .hugeNumber
        else
          let _ ← Reader.takeWhile isDigit
          pure (.float (if positive then 0.0 else -0.0))

/-- Read what follows the digits before the point, for a number `n · 10 ^ e` so far. -/
def readFraction (positive : Bool) (n : Nat) (e : Int) : Reader Number := do
  Reader.skip 1
  let digits ← Reader.takeWhile isDigit
  let (n, count) := absorb n digits
  if digits.isEmpty then
    Reader.failAtNext (if (← Reader.peek).isSome then .badNumber else .endInValue)
  else
    let following ← Reader.peek
    if following = some 0x65 || following = some 0x45 then readExponent positive n (e - count)
    else scaled positive n (e - count)

/-- Read a number behind its sign. -/
def readNumber (positive : Bool) : Reader Number := do
  match ← Reader.next with
  | none => Reader.fail .endInValue
  | some b =>
    if !isDigit b then Reader.fail .badNumber
    else
      -- A leading zero stands alone.
      let digits ← if b = 0x30 then pure [] else Reader.takeWhile isDigit
      let following ← Reader.peek
      if b = 0x30 && following.any isDigit then Reader.failAtNext .badNumber
      else
        let (n, count) := absorb (digitOf b) digits
        -- Digits that were dropped from the number are made up for by its exponent.
        let e := digits.length - count
        if following = some 0x2E then readFraction positive n e
        else if following = some 0x65 || following = some 0x45 then readExponent positive n e
        else if 0 < e then scaled positive n e
        else if positive then pure (.natural n)
        -- Minus zero, and what is below the least integer, is a float.
        else if n = 0 || 0x8000000000000000 < n then pure (.float (-(Float.ofNat n)))
        else pure (.negative n)

/-- Pass over an exponent at its sign. -/
def passExponent : Reader Unit := do
  Reader.skip 1
  let sign ← Reader.peek
  if sign = some 0x2B || sign = some 0x2D then Reader.skip 1
  match ← Reader.next with
  | none => Reader.fail .badNumber
  | some b =>
    if !isDigit b then Reader.fail .badNumber
    else
      let _ ← Reader.takeWhile isDigit
      pure ()

/-- Pass over a number behind its sign. -/
def passNumber : Reader Unit := do
  match ← Reader.next with
  | none => Reader.fail .badNumber
  | some b =>
    if !isDigit b then Reader.fail .badNumber
    else
      let _ ← if b = 0x30 then pure [] else Reader.takeWhile isDigit
      let following ← Reader.peek
      if b = 0x30 && following.any isDigit then Reader.failAtNext .badNumber
      else if following = some 0x2E then
        Reader.skip 1
        let digits ← Reader.takeWhile isDigit
        if digits.isEmpty then Reader.failAtNext .badNumber
        else
          let following ← Reader.peek
          if following = some 0x65 || following = some 0x45 then passExponent
      else if following = some 0x65 || following = some 0x45 then passExponent

/-! ## §3 Names and values -/

/-- Take the rest of a name. -/
def expectName : List UInt8 → Reader Unit
  | [] => pure ()
  | b :: name => do
    match ← Reader.next with
    | none => Reader.fail .endInValue
    | some c => if c = b then expectName name else Reader.fail .expectedName

/-- The rest of a name behind its first letter. -/
def nameTail? : UInt8 → Option (List UInt8)
  | 0x6E => some [0x75, 0x6C, 0x6C]
  | 0x74 => some [0x72, 0x75, 0x65]
  | 0x66 => some [0x61, 0x6C, 0x73, 0x65]
  | _ => none

/-- Take the colon behind a key. -/
def expectColon : Reader Unit := do
  match ← Reader.peekPart with
  | some 0x3A => Reader.skip 1
  | some _ => Reader.failAtNext .expectedColon
  | none => Reader.failAtNext .endInObject

mutual

/-- Pass over a value, with a bound on the number of steps. -/
def passValue : Nat → Reader Unit
  | 0 => Reader.fail .expectedValue
  | bound + 1 => do
    match ← Reader.peekPart with
    | none => Reader.failAtNext .endInValue
    | some b =>
      if b = 0x22 then
        Reader.skip 1
        passText
      else if b = 0x2D then
        Reader.skip 1
        passNumber
      else if isDigit b then passNumber
      else if b = 0x5B then
        Reader.skip 1
        passParts bound false true
      else if b = 0x7B then
        Reader.skip 1
        passParts bound true true
      else
        match nameTail? b with
        | some name =>
          Reader.skip 1
          expectName name
        | none => Reader.failAtNext .expectedValue

/-- Pass over the rest of a list or object; `first` tells that no part of it was read. -/
def passParts : Nat → Bool → Bool → Reader Unit
  | 0, _, _ => Reader.fail .expectedValue
  | bound + 1, object, first => do
    let closing : UInt8 := if object then 0x7D else 0x5D
    match ← Reader.peekPart with
    | none => Reader.failAtNext (if object then .endInObject else .endInList)
    | some b =>
      if b = closing then Reader.skip 1
      -- A comma is only due between two parts.
      else if !first && b ≠ 0x2C then
        Reader.failAtNext (if object then .expectedObjectEnd else .expectedListEnd)
      else
        if !first then Reader.skip 1
        -- In an object a value comes behind its key.
        if object then
          match ← Reader.peekPart with
          | some 0x22 =>
            Reader.skip 1
            passText
            expectColon
          | some _ => Reader.failAtNext .keyNotText
          | none => Reader.failAtNext .endInObject
        passValue bound
        passParts bound object false

end

def passAny : Reader Unit := do passValue (2 * (← Reader.left) + 2)

def Number.words : Number → String
  | natural n => s!"integer `{n}`"
  | negative n => s!"integer `-{n}`"
  | float x => s!"floating point `{floatText x}`"

/-- Read a value of a kind that was not asked for, and fail. -/
def failAtValue {α : Type} (wanted : String) : Reader α := do
  let wrong (found : String) : Reader α := Reader.fail (.badValue "type" found wanted)
  match ← Reader.peek with
  | some 0x22 =>
    Reader.skip 1
    let text ← readText
    wrong ("string " ++ quoted text)
  | some 0x2D =>
    Reader.skip 1
    wrong (← readNumber false).words
  | some 0x5B => wrong "sequence"
  | some 0x7B => wrong "map"
  | some b =>
    if isDigit b then wrong (← readNumber true).words
    else
      match nameTail? b with
      | some name =>
        Reader.skip 1
        expectName name
        wrong (if b = 0x6E then "null" else if b = 0x74 then "boolean `true`" else "boolean `false`")
      | none => Reader.failAtNext .expectedValue
  | none => Reader.failAtNext .expectedValue

/-- Read a text as a value. -/
def readString : Reader String := do
  match ← Reader.peekPart with
  | none => Reader.failAtNext .endInValue
  | some 0x22 =>
    Reader.skip 1
    readText
  | some _ => failAtValue "a string"

/-- Read a number of 64 bits as a value. -/
def readNatural : Reader Nat := do
  let wanted := "usize"
  let accept : Number → Reader Nat
    | .natural n => pure n
    | .negative n => Reader.fail (.badValue "value" s!"integer `-{n}`" wanted)
    | number => Reader.fail (.badValue "type" number.words wanted)
  match ← Reader.peekPart with
  | none => Reader.failAtNext .endInValue
  | some 0x2D =>
    Reader.skip 1
    accept (← readNumber false)
  | some b => if isDigit b then accept (← readNumber true) else failAtValue wanted

end WordStudy.Json
