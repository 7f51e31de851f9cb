/-!
# Shortest decimals

The text of a floating point number: **the fewest digits that read back** as the number, and
of those the nearest to it. All arithmetic is on natural numbers.
-/

namespace WordStudy.Text

/-- A number as the quotient of two natural numbers. -/
structure Quotient where
  top : Nat
  bottom : Nat

namespace Quotient

/-- The number `n · 2 ^ e`. -/
def ofBinary (n : Nat) (e : Int) : Quotient := ⟨n * Nat.pow 2 e.toNat, Nat.pow 2 (-e).toNat⟩

/-- The number `n · 10 ^ e`. -/
def ofDecimal (n : Nat) (e : Int) : Quotient := ⟨n * Nat.pow 10 e.toNat, Nat.pow 10 (-e).toNat⟩

def lt (a b : Quotient) : Bool := a.top * b.bottom < b.top * a.bottom

/-- The first number is at most the second. -/
def le (a b : Quotient) : Bool := !lt b a

def distance (a b : Quotient) : Quotient :=
  let x := a.top * b.bottom
  let y := b.top * a.bottom
  ⟨(x - y) + (y - x), a.bottom * b.bottom⟩

/-- How often `10 ^ e` goes into the number. -/
def floorAt (a : Quotient) (e : Int) : Nat :=
  a.top * Nat.pow 10 (-e).toNat / (a.bottom * Nat.pow 10 e.toNat)

end Quotient

/-- A positive binary number `mantissa · 2 ^ exponent` and the numbers that round to it. -/
structure BinaryNumber where
  mantissa : Nat
  exponent : Int

namespace BinaryNumber

def value (b : BinaryNumber) : Quotient := .ofBinary b.mantissa b.exponent

/-- The number next below is only half as far away as the one next above. -/
def isLeast (b : BinaryNumber) : Bool := b.mantissa = 0x10000000000000 && -1074 < b.exponent

/-- The decimal rounds to the number; the ends of the interval do if the mantissa is even. -/
def isReadFrom (b : BinaryNumber) (q : Quotient) : Bool :=
  let low := if b.isLeast then Quotient.ofBinary (4 * b.mantissa - 1) (b.exponent - 2)
    else .ofBinary (2 * b.mantissa - 1) (b.exponent - 1)
  let high := Quotient.ofBinary (2 * b.mantissa + 1) (b.exponent - 1)
  if b.mantissa % 2 = 0 then low.le q && q.le high else low.lt q && q.lt high

/-- The digit count of the part before the point, zero or less for a number below 1: the
least `n ≥ -350` for which the number is below `10 ^ n`. -/
def magnitude (b : BinaryNumber) : Int :=
  let rec go : Nat → Int → Int
    | 0, n => n
    | left + 1, n => if b.value.lt (.ofDecimal 1 n) then n else go left (n + 1)
  go 700 (-350)

/-- The decimal with `count` digits that is nearest among those that read back. -/
def nearest (b : BinaryNumber) (count : Nat) : Option (Nat × Int) :=
  let e := b.magnitude - count
  let low := b.value.floorAt e
  let distanceTo (n : Nat) : Quotient := b.value.distance (.ofDecimal n e)
  match b.isReadFrom (.ofDecimal low e), b.isReadFrom (.ofDecimal (low + 1) e) with
  | true, false => some (low, e)
  | false, true => some (low + 1, e)
  | false, false => none
  -- Both are read back as the number, so the nearer one is taken, and the even one at a tie.
  | true, true =>
    if (distanceTo low).lt (distanceTo (low + 1)) then some (low, e)
    else if (distanceTo (low + 1)).lt (distanceTo low) then some (low + 1, e)
    else some (if low % 2 = 0 then low else low + 1, e)

/-- The digits and the power of ten of the shortest decimal. -/
def shortest (b : BinaryNumber) : Nat × Int :=
  ((List.range 17).findSome? fun i => b.nearest (i + 1)).getD (0, 0)

end BinaryNumber

/-- Zeros at the end of the digits moved into the power of ten. -/
def withoutZeros : Nat → Nat → Int → Nat × Int
  | 0, n, e => (n, e)
  | left + 1, n, e => if n ≠ 0 && n % 10 = 0 then withoutZeros left (n / 10) (e + 1) else (n, e)

def zeros (n : Nat) : String := String.ofList (List.replicate n '0')

/-- The text of `n · 10 ^ e`: with a point where it stands within 16 digits or up to four zeros
behind it, and else with an exponent that has a sign. -/
def decimalText (n : Nat) (e : Int) : String :=
  let digits := toString n
  let point := digits.length + e
  -- The point is written as such near the digits; else the number has an exponent.
  if 0 ≤ e && point ≤ 16 then digits ++ zeros e.toNat ++ ".0"
  else if 0 < point && point ≤ 16 then
    String.ofList (digits.toList.take point.toNat ++ '.' :: digits.toList.drop point.toNat)
  else if -5 < point && point ≤ 0 then "0." ++ zeros (-point).toNat ++ digits
  else
    let fraction := digits.toList.drop 1
    String.ofList (digits.toList.take 1 ++ (if fraction.isEmpty then [] else '.' :: fraction)) ++
      (if 0 < point then "e+" else "e") ++ toString (point - 1)

/-- **The text of a finite number.** -/
def floatText (x : Float) : String :=
  let bits := x.toBits.toNat
  let sign := if bits / 0x8000000000000000 = 1 then "-" else ""
  let biased : Nat := bits / 0x10000000000000 % 0x800
  let fraction : Nat := bits % 0x10000000000000
  if biased = 0 && fraction = 0 then sign ++ "0.0"
  else
    let b : BinaryNumber :=
      -- The least exponent goes with numbers that have no leading bit.
      if biased = 0 then ⟨fraction, -1074⟩ else ⟨0x10000000000000 + fraction, (biased : Int) - 1075⟩
    let (n, e) := b.shortest
    let (n, e) := withoutZeros 17 n e
    sign ++ decimalText n e

end WordStudy.Text
