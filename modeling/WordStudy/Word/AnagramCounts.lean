import WordStudy.Word.Letters

/-!
# Counts of anagrams

How many words of a vocabulary have the same letters, by alphagram. Counts have **32 bits** and wrap
round.
-/

namespace WordStudy

/-- The number of words of each alphagram. -/
structure AnagramCounts where
  counts : Std.TreeMap Word UInt32

namespace AnagramCounts

def empty : AnagramCounts := ⟨∅⟩

def add (c : AnagramCounts) (w : Word) : AnagramCounts :=
  ⟨c.counts.insert w.alphagram ((c.counts[w.alphagram]?).getD 0 + 1)⟩

def ofWords (words : List Word) : AnagramCounts := words.foldl add empty

/-- How many words have the letters of `w`. -/
def count (c : AnagramCounts) (w : Word) : Nat := ((c.counts[w.alphagram]?).getD 0).toNat

/-- What is stored for an alphagram that so many words have; nothing if there is none. -/
def stored? (n : Nat) : Option UInt32 := if n = 0 then none else some (UInt32.ofNat n)

end AnagramCounts

end WordStudy
