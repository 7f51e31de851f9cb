import WordStudy.Text.Decimal
import WordStudy.Text.Numeral

/-!
# Numbers in text

Numbers with a point and an exponent, as they may stand in a text that is compared with a column of
numbers: between blanks, with a sign, at least one digit, and nothing else. The number is **rounded
to the nearest number of 53 binary digits** before it is compared.
-/

namespace WordStudy.Text

/-- The number `digits · 10 ^ exponent`, or its negative. -/
structure ScientificNumber where
  isNegative : Bool
  digits : Nat
  exponent : Int
  deriving DecidableEq, Repr

namespace ScientificNumber

/-! ## §1 Reading -/

/-- The blanks that may stand around a number. -/
def isSpace (c : Char) : Bool := c = ' ' || ('\t' ≤ c && c ≤ '\r')

/-- Digits are dropped from here on. -/
def digitLimit : Nat := 0x1999999999999998

def valueOf (c : Char) : Nat := c.toNat - '0'.toNat

/-- Digits put behind a number until it reaches the limit; the number, and how many digits were
dropped. -/
def absorbDigits : Nat → List Char → Nat × Nat
  | n, [] => (n, 0)
  | n, c :: rest =>
    if digitLimit ≤ n then (n, rest.length + 1) else absorbDigits (n * 10 + valueOf c) rest

/-- What begins with a sign, without it. -/
def takeSign : List Char → Bool × List Char
  | '-' :: rest => (true, rest)
  | '+' :: rest => (false, rest)
  | text => (false, text)

/-- The digits that a text begins with, and what follows them. -/
def takeDigits (text : List Char) : List Char × List Char :=
  (text.takeWhile Char.isDigit, text.dropWhile Char.isDigit)

/-- The exponent at the front of a text, and what follows it. An exponent of many digits is not
read to its end. -/
def takeExponent : List Char → Option (Int × List Char)
  | mark :: text =>
    if mark = 'e' || mark = 'E' then
      let (isNegative, text) := takeSign text
      let (digits, rest) := takeDigits text
      if digits.isEmpty then none
      else
        -- An exponent that is too large is cut, since the number is infinite or zero anyway.
        let size := digits.foldl (fun n c => if n < 10000 then n * 10 + valueOf c else 10000) 0
        some (if isNegative then -Int.ofNat size else Int.ofNat size, rest)
    else some (0, mark :: text)
  | [] => some (0, [])

/-- The digits behind a point at the front of a text, and what follows them. -/
def takeFraction : List Char → List Char × List Char
  | '.' :: text => takeDigits text
  | text => ([], text)

/-- **Read a number**, `none` if the text is none. -/
def read (text : List Char) : Option ScientificNumber := do
  let (isNegative, text) := takeSign (text.dropWhile isSpace)
  let (whole, text) := takeDigits text
  let (fraction, text) := takeFraction text
  let (exponent, text) ← takeExponent text
  if (whole.isEmpty && fraction.isEmpty) || !text.all isSpace then none
  else
    let (n, dropped) := absorbDigits 0 whole
    let (digits, lost) := absorbDigits n fraction
    some ⟨isNegative, digits, exponent + dropped - (fraction.length - lost : Nat)⟩

/-! ## §2 Comparing -/

/-- A natural number above zero with 53 binary digits, of which the last ones are zeros. -/
def binaryOf (n : Nat) : BinaryNumber := ⟨n * Nat.pow 2 (52 - n.log2), (n.log2 : Int) - 52⟩

/-- The least distance from zero that does not round to it. -/
def leastDistance : Quotient := .ofBinary 1 (-1075)

/-- **The number rounds to `n`**, which is below `2 ^ 53`. -/
def roundsTo (x : ScientificNumber) (n : Nat) : Bool :=
  let q := Quotient.ofDecimal x.digits x.exponent
  if n = 0 then x.digits = 0 || q.le leastDistance
  else !x.isNegative && x.digits ≠ 0 && (binaryOf n).isReadFrom q

end ScientificNumber

end WordStudy.Text
