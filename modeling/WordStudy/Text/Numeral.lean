/-!
# Unsigned numerals

Numbers as users write them: an optional `+`, then at least one digit, and a value within a
limit. Reading goes from the left and stops at the first fault.
-/

namespace WordStudy.Text

/-- Why a text is not a numeral. -/
inductive NumeralFault where
  | empty
  | badDigit
  | tooLarge
  deriving DecidableEq, Repr

def NumeralFault.message : NumeralFault → String
  | .empty => "cannot parse integer from empty string"
  | .badDigit => "invalid digit found in string"
  | .tooLarge => "number too large to fit in target type"

/-- The value of a digit below `radix`. -/
def digitValue? (radix : Nat) (c : Char) : Option Nat :=
  let value? :=
    if '0' ≤ c && c ≤ '9' then some (c.toNat - '0'.toNat)
    else if 'a' ≤ c && c ≤ 'z' then some (c.toNat - 'a'.toNat + 10)
    else if 'A' ≤ c && c ≤ 'Z' then some (c.toNat - 'A'.toNat + 10)
    else none
  value?.filter (· < radix)

/-- Read the digits behind those whose value is `value`. -/
def readDigits (radix limit : Nat) : Nat → List Char → Except NumeralFault Nat
  | value, [] => .ok value
  | value, c :: rest =>
    match digitValue? radix c with
    | none => .error .badDigit
    | some digit =>
      if limit < value * radix + digit then .error .tooLarge
      else readDigits radix limit (value * radix + digit) rest

/-- Read a numeral in base `radix` whose value is at most `limit`. -/
def readNumeral (radix limit : Nat) : List Char → Except NumeralFault Nat
  | [] => .error .empty
  | ['+'] => .error .badDigit
  | '+' :: rest => readDigits radix limit 0 rest
  | text => readDigits radix limit 0 text

/-- The largest number of 32 bits, which also stands for "no upper bound". -/
def maxWord32 : Nat := 0xFFFFFFFF

/-- The largest number of 64 bits, at which large counts are capped. -/
def maxWord64 : Nat := 0xFFFFFFFFFFFFFFFF

/-- What becomes of a number that does not fit its width: the run stops there, or the number wraps
round. -/
inductive Overflow where
  | stops
  | wraps
  deriving DecidableEq, Repr

/-- A number kept in a width whose greatest number is `greatest`. -/
def Overflow.fit? (overflow : Overflow) (greatest n : Nat) : Option Nat :=
  if n ≤ greatest then some n
  else
    match overflow with
    | .stops => none
    | .wraps => some (n % (greatest + 1))

/-- What fits is kept as it is. -/
theorem Overflow.fit?_of_le {overflow : Overflow} {greatest n : Nat} (h : n ≤ greatest) :
    overflow.fit? greatest n = some n := if_pos h

@[simp] theorem Overflow.stops_fit? (greatest n : Nat) :
    Overflow.stops.fit? greatest n = if n ≤ greatest then some n else none := rfl

@[simp] theorem Overflow.wraps_fit? (greatest n : Nat) :
    Overflow.wraps.fit? greatest n = some (n % (greatest + 1)) := by
  unfold fit?
  split
  · next h => rw [Nat.mod_eq_of_lt (Nat.lt_succ_of_le h)]
  · rfl

/-- A decimal numeral of at most 32 bits. -/
def decimal32? (text : List Char) : Option Nat :=
  (readNumeral 10 maxWord32 text).toOption

/-- A value that was read is within the limit. -/
theorem readDigits_le {radix limit value n : Nat} {text : List Char} (hv : value ≤ limit)
    (h : readDigits radix limit value text = .ok n) : n ≤ limit := by
  induction text generalizing value with
  | nil => simp only [readDigits, Except.ok.injEq] at h; omega
  | cons c rest ih =>
    simp only [readDigits] at h
    split at h
    · cases h
    · split at h
      · cases h
      · next hle => exact ih (by omega) h

end WordStudy.Text
