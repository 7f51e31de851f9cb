import WordStudy.Text.Numeral

/-!
# Bounds

A range of numbers with both ends included. The greatest number of 32 bits as upper end
means that there is none.
-/

namespace WordStudy

open Text

/-- The numbers from `least` to `greatest`. -/
structure Bounds where
  least : Nat
  greatest : Nat
  deriving DecidableEq, Repr

namespace Bounds

def exactly (n : Nat) : Bounds := ⟨n, n⟩

/-- Every number from `n` up. -/
def atLeast (n : Nat) : Bounds := ⟨n, maxWord32⟩

def contains (r : Bounds) (n : Nat) : Bool := r.least ≤ n && n ≤ r.greatest

def isEmpty (r : Bounds) : Bool := r.greatest < r.least

/-- The greater of the lower ends and the smaller of the upper ones. -/
def narrow (r s : Bounds) : Bounds := ⟨max r.least s.least, min r.greatest s.greatest⟩

/-- The numbers in both ranges, `none` if there are none. -/
def meet (r s : Bounds) : Option Bounds :=
  if (r.narrow s).isEmpty then none else some (r.narrow s)

/-- The range as it is written in a query: `3`, `3-` or `3-5`. -/
def text (r : Bounds) : String :=
  if r.least = r.greatest then toString r.least
  else if r.greatest = maxWord32 then s!"{r.least}-"
  else s!"{r.least}-{r.greatest}"

/-- Narrowing keeps the numbers that are in both ranges. -/
theorem contains_narrow (r s : Bounds) (n : Nat) :
    (r.narrow s).contains n = (r.contains n && s.contains n) := by
  simp only [contains, narrow, Nat.max_le, Nat.le_min, Bool.decide_and]
  grind

/-- An empty range has no numbers. -/
theorem contains_of_isEmpty {r : Bounds} (h : r.isEmpty = true) (n : Nat) :
    r.contains n = false := by
  simp only [isEmpty, decide_eq_true_eq] at h
  simp only [contains, Bool.and_eq_false_iff, decide_eq_false_iff_not]
  omega

end Bounds

end WordStudy
