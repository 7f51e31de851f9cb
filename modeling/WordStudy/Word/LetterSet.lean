import WordStudy.Word.Basic

/-!
# Sets of letters

A set of upper-case letters as 26 bits, the lowest for `A`.
-/

namespace WordStudy

/-- A set of upper-case letters. -/
structure LetterSet where
  bits : BitVec 26
  deriving DecidableEq, Repr

namespace LetterSet

def place (b : UInt8) : Nat := b.toNat - 0x41

/-- The letter is in the set; no other byte is. -/
def contains (set : LetterSet) (b : UInt8) : Bool := isUpper b && set.bits.getLsbD (place b)

/-- The set of the upper-case letters among `letters`. -/
def ofLetters (letters : List UInt8) : LetterSet :=
  ⟨letters.foldl (fun bits b => if isUpper b then bits ||| BitVec.twoPow 26 (place b) else bits) 0⟩

def complement (set : LetterSet) : LetterSet := ⟨~~~set.bits⟩

def all : LetterSet := ⟨BitVec.allOnes 26⟩

def letters (set : LetterSet) : List UInt8 := alphabet.filter set.contains

/-- Helper: a letter has one of the 26 bits. -/
theorem place_lt {b : UInt8} (h : isUpper b = true) : place b < 26 := by
  simp only [isUpper, Bool.and_eq_true, decide_eq_true_eq, UInt8.le_iff_toNat_le] at h
  have h1 : (0x41 : UInt8).toNat = 65 := rfl
  have h2 : (0x5A : UInt8).toNat = 90 := rfl
  unfold place
  omega

/-- The complement holds exactly the other letters. -/
theorem contains_complement (set : LetterSet) (b : UInt8) :
    set.complement.contains b = (isUpper b && !set.contains b) := by
  simp only [contains, complement]
  cases h : isUpper b with
  | false => simp
  | true => simp [place_lt h]

end LetterSet

end WordStudy
