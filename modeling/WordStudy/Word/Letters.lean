import WordStudy.Word.Basic

/-!
# Letters of a word

Counts of letters and vowels, the alphagram, and the test that a word is spelled in a given
alphabet.
-/

namespace WordStudy

def isVowel (b : UInt8) : Bool := [0x41, 0x45, 0x49, 0x4F, 0x55].contains (upperByte b)

/-- The largest count kept of one letter. -/
def maxLetterCount : Nat := 255

namespace Word

def vowelCount (w : Word) : Nat := w.countP isVowel

/-- How many different bytes the word has, both cases of a letter being one. -/
def distinctCount (w : Word) : Nat := (upper w).eraseDups.length

/-- How often the upper-case letter `l` stands in the word, in either case, counted up to
`maxLetterCount`. -/
def letterCount (w : Word) (l : UInt8) : Nat := min maxLetterCount ((upper w).count l)

/-- The word has no letter more often than `whole` has it. -/
def fitsIn (part whole : Word) : Bool :=
  alphabet.all fun l => part.letterCount l ≤ whole.letterCount l

/-- Insert a byte in front of the first one that is not smaller. -/
def insertSorted (b : UInt8) : Word → Word
  | [] => [b]
  | c :: w => if b ≤ c then b :: c :: w else c :: insertSorted b w

def sorted : Word → Word
  | [] => []
  | b :: w => insertSorted b (sorted w)

/-- **The alphagram**: the letters in upper case and ascending order. Words with one
alphagram are anagrams. Bytes of other characters lose their order and are shown as U+FFFD. -/
def alphagram (w : Word) : Word := ofText (text (sorted (upper w)))

theorem alphagram_upper (w : Word) : w.upper.alphagram = w.alphagram := by
  rw [alphagram, alphagram, upper_upper]

/-- The word in upper case, provided that it is not empty and all its letters are in
`letters`. -/
def spelledIn (w letters : Word) : Option Word :=
  if w.isEmpty || !w.isAscii then none
  else if (upper w).all letters.contains then some (upper w)
  else none

end Word

/-- The alphagrams of `words`, each once, in order. -/
def alphagrams (words : List Word) : List Word :=
  (Word.sort (words.map Word.alphagram)).eraseDups

/-! ## Small laws -/

namespace Word

/-- Inserting keeps the bytes. -/
theorem insertSorted_perm (b : UInt8) (w : Word) : (insertSorted b w).Perm (b :: w) := by
  induction w with
  | nil => exact .refl _
  | cons c w ih =>
    simp only [insertSorted]
    split
    · exact .refl _
    · exact (ih.cons c).trans (.swap ..)

/-- Sorting keeps the bytes. -/
theorem sorted_perm (w : Word) : (sorted w).Perm w := by
  induction w with
  | nil => exact .refl _
  | cons b w ih => exact (insertSorted_perm b _).trans (ih.cons b)

/-- What is spelled in an alphabet comes out in upper case. -/
theorem spelledIn_eq_some {letters w v : Word} (h : spelledIn w letters = some v) :
    v = upper w ∧ ∀ b ∈ v, b ∈ letters := by
  unfold spelledIn at h
  split at h
  · cases h
  · split at h
    · next hall =>
      cases h
      exact ⟨rfl, by simpa using hall⟩
    · cases h

end Word

end WordStudy
