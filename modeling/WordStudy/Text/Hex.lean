/-!
# Hexadecimal numerals

Numbers in base 16, in lower case and filled up with zeros.
-/

namespace WordStudy.Text

/-- The digit of a value below 16. -/
def hexDigit (n : Nat) : Char := "0123456789abcdef".toList.getD (n % 16) '0'

/-- The last `width` digits of a number, the first one first. -/
def hexDigits : Nat → Nat → List Char
  | 0, _ => []
  | width + 1, n => hexDigits width (n / 16) ++ [hexDigit n]

/-- A number of 16 bits in four digits. -/
def hex16 (n : BitVec 16) : String := String.ofList (hexDigits 4 n.toNat)

end WordStudy.Text
