import Mathlib.Logic.Function.Basic
import WordStudy.Proofs.Access.Basic
import WordStudy.Tiles.Draws

/-!
# Checked accesses to tables of letters

Sets of letters as words of 32 bits, counts of letters and the tables of a bag. A byte is looked up
only behind the test that it is a capital letter, so that **every word of any bytes** has its letters
counted, its points summed and its draws found without a fault.
-/

namespace WordStudy

/-! ## §1 Sets of letters -/

/-- The set as a word of 32 bits, the lowest for `A`. -/
def LetterSet.word (set : LetterSet) : BitVec 32 := set.bits.setWidth 32

/-- The set that a word of 32 bits stands for. -/
def LetterSet.ofWord (word : BitVec 32) : LetterSet := ⟨word.setWidth 26⟩

@[simp] theorem LetterSet.ofWord_word (set : LetterSet) : ofWord set.word = set := by
  obtain ⟨bits⟩ := set
  have hbits : (bits.setWidth 32).setWidth 26 = bits := by
    apply BitVec.eq_of_getLsbD_eq
    intro i hi
    simp [hi]
  exact congrArg LetterSet.mk hbits

namespace Checked

/-- Add a byte to a set if it is a capital letter. -/
def addLetter (word : BitVec 32) (b : UInt8) : Checked (BitVec 32) :=
  if isUpper b then do
    let place ← letterPlace b
    let bit ← oneBit 32 place
    return word ||| bit
  else return word

/-- The set of the capital letters among `letters`. -/
def setOf (letters : List UInt8) : Checked (BitVec 32) := letters.foldlM addLetter 0

/-- The letter is in the set. -/
def inSet (word : BitVec 32) (b : UInt8) : Checked Bool :=
  if isUpper b then do
    let place ← letterPlace b
    hasBit word place
  else return false

/-- The set of all other letters. -/
def otherLetters (word : BitVec 32) : BitVec 32 := ~~~word &&& LetterSet.all.word

theorem addLetter_eq (bits : BitVec 26) (b : UInt8) :
    addLetter (bits.setWidth 32) b = pure
      ((if isUpper b then bits ||| BitVec.twoPow 26 (LetterSet.place b) else bits).setWidth 32) := by
  unfold addLetter
  cases hb : isUpper b with
  | false => rfl
  | true =>
    -- A letter's place is below 26, so its bit is the same in the wider mask.
    have hplace := LetterSet.place_lt hb
    have hwide : LetterSet.place b < 32 := Nat.lt_trans hplace (by decide)
    have hbit : BitVec.twoPow 32 (LetterSet.place b) =
        (BitVec.twoPow 26 (LetterSet.place b)).setWidth 32 := by
      apply BitVec.eq_of_getLsbD_eq
      intro i hi
      simp only [BitVec.getLsbD_setWidth, BitVec.getLsbD_twoPow, hi]
      grind
    rw [if_pos rfl, if_pos rfl, letterPlace_eq hb, pure_bind, oneBit_eq hwide, pure_bind, hbit,
      BitVec.setWidth_or]

theorem setOf_eq (letters : List UInt8) : setOf letters = pure (LetterSet.ofLetters letters).word := by
  have hfold (bits : BitVec 26) : letters.foldlM addLetter (bits.setWidth 32) =
      pure ((letters.foldl (fun bits b =>
        if isUpper b then bits ||| BitVec.twoPow 26 (LetterSet.place b) else bits) bits).setWidth 32) := by
    induction letters generalizing bits with
    | nil => rfl
    | cons b letters ih => rw [List.foldlM_cons, addLetter_eq, pure_bind, ih, List.foldl_cons]
  exact hfold 0

theorem inSet_eq (set : LetterSet) (b : UInt8) : inSet set.word b = pure (set.contains b) := by
  unfold inSet LetterSet.contains
  cases hb : isUpper b with
  | false => rfl
  | true =>
    have hwide : LetterSet.place b < 32 := Nat.lt_trans (LetterSet.place_lt hb) (by decide)
    simp [letterPlace_eq hb, hasBit_eq _ hwide, LetterSet.word, hwide]

theorem otherLetters_eq (set : LetterSet) : otherLetters set.word = set.complement.word := by
  apply BitVec.eq_of_getLsbD_eq
  intro i hi
  simp only [otherLetters, LetterSet.word, LetterSet.complement, LetterSet.all, BitVec.getLsbD_and,
    BitVec.getLsbD_not, BitVec.getLsbD_setWidth, BitVec.getLsbD_allOnes, hi]
  grind

end Checked

/-! ## §2 Tables of letters -/

/-- Numbers for the 26 letters, by their places. -/
abbrev LetterNumbers : Type := Fin 26 → Nat

/-- The letter with a place in a table. -/
def letterAt (place : Fin 26) : UInt8 := UInt8.ofNat (0x41 + place)

theorem alphabet_eq_map : alphabet = (List.finRange 26).map letterAt := by decide

theorem letterAt_place {b : UInt8} (h : isUpper b = true) :
    letterAt ⟨LetterSet.place b, LetterSet.place_lt h⟩ = b := by
  apply UInt8.toNat_inj.mp
  simp only [isUpper, Bool.and_eq_true, decide_eq_true_eq, UInt8.le_iff_toNat_le] at h
  have hlow : (0x41 : UInt8).toNat = 65 := rfl
  have hhigh : (0x5A : UInt8).toNat = 90 := rfl
  simp only [letterAt, LetterSet.place, UInt8.toNat_ofNat']
  omega

theorem isUpper_letterAt (place : Fin 26) : isUpper (letterAt place) = true := by
  revert place
  decide

theorem place_letterAt (place : Fin 26) : LetterSet.place (letterAt place) = place := by
  revert place
  decide

/-- A capital letter has one place. -/
theorem eq_letterAt_iff {b : UInt8} (h : isUpper b = true) (place : Fin 26) :
    b = letterAt place ↔ place = ⟨LetterSet.place b, LetterSet.place_lt h⟩ := by
  constructor
  · rintro rfl
    exact Fin.ext (place_letterAt place).symm
  · rintro rfl
    exact (letterAt_place h).symm

namespace Checked

/-- Add one to the number of a letter, up to the largest count that is kept. -/
def countLetter (counts : LetterNumbers) (b : UInt8) : Checked LetterNumbers :=
  if isUpper b then do
    let place ← letterPlace b
    return Function.update counts place (min maxLetterCount (counts place + 1))
  else return counts

/-- How often each letter stands in the word, in either case. -/
def letterCounts (w : Word) : Checked LetterNumbers := w.upper.foldlM countLetter fun _ => 0

/-- A byte counts for the one letter that it is, if it is a letter. -/
theorem countLetter_eq (counts : LetterNumbers) (b : UInt8) :
    countLetter counts b = pure fun place =>
      if b = letterAt place then min maxLetterCount (counts place + 1) else counts place := by
  unfold countLetter
  cases hb : isUpper b with
  | false =>
    have hne (place : Fin 26) : b ≠ letterAt place := by
      rintro rfl
      cases hb.symm.trans (isUpper_letterAt place)
    simp [hne]
  | true =>
    rw [if_pos rfl, letterPlace_eq hb, pure_bind]
    congr 1
    funext place
    rw [Function.update_apply]
    -- Only the number at the letter's own place changes.
    by_cases hplace : b = letterAt place
    · have heq := (eq_letterAt_iff hb place).mp hplace
      rw [if_pos hplace, if_pos heq, ← heq]
    · rw [if_neg hplace, if_neg (mt (eq_letterAt_iff hb place).mpr hplace)]

theorem letterCounts_eq (w : Word) :
    letterCounts w = pure fun place => w.letterCount (letterAt place) := by
  -- A count within the limit is cut at the limit once or at each letter alike.
  have hfold (letters : List UInt8) (counts : LetterNumbers)
      (hcounts : ∀ place, counts place ≤ maxLetterCount) :
      letters.foldlM countLetter counts =
        pure fun place => min maxLetterCount (counts place + letters.count (letterAt place)) := by
    induction letters generalizing counts with
    | nil =>
      rw [List.foldlM_nil]
      congr 1
      funext place
      exact (Nat.min_eq_right (hcounts place)).symm
    | cons b letters ih =>
      rw [List.foldlM_cons, countLetter_eq, pure_bind, ih]
      · congr 1
        funext place
        rw [List.count_cons]
        simp only [beq_iff_eq]
        split <;> omega
      · intro place
        have hplace := hcounts place
        split <;> omega
  rw [letterCounts, hfold w.upper _ fun _ => Nat.zero_le _]
  congr 1
  funext place
  rw [Nat.zero_add, Word.letterCount]

/-- The word has no letter more often than `whole` has it. -/
def fitsIn (part whole : Word) : Checked Bool := do
  let there ← letterCounts whole
  let needed ← letterCounts part
  return (List.finRange 26).all fun place => needed place ≤ there place

theorem fitsIn_eq (part whole : Word) : fitsIn part whole = pure (part.fitsIn whole) := by
  rw [fitsIn, letterCounts_eq, letterCounts_eq, pure_bind, pure_bind, Word.fitsIn, alphabet_eq_map,
    List.all_map]
  rfl

end Checked

/-! ## §3 Bags -/

/-- The tables of a bag: so many tiles of each letter, the values of the letters, and the blanks. -/
structure TileTables where
  frequencies : LetterNumbers
  values : LetterNumbers
  blanks : Nat

/-- The tables of a bag, in which each letter has its place. -/
def TileBag.tables (bag : TileBag) : TileTables where
  frequencies place := bag.frequency (letterAt place)
  values place := bag.values.value (letterAt place)
  blanks := bag.blanks

namespace Checked

/-- The value of a letter in either case. -/
def letterValue (tables : TileTables) (b : UInt8) : Checked Nat :=
  if isUpper (upperByte b) then do
    let place ← letterPlace (upperByte b)
    return tables.values place
  else return 0

/-- The sum of the letter values of a word, in 32 bits. -/
def pointValue (tables : TileTables) (w : Word) : Checked Nat := do
  let values ← w.mapM (letterValue tables)
  return values.foldr (· + ·) 0 % (Text.maxWord32 + 1)

/-- The number of draws that give the letters of `w`. -/
def draws (tables : TileTables) (w : Word) : Checked Nat := do
  let counts ← letterCounts w
  let needs := ((List.finRange 26).filter fun place => 0 < counts place).map fun place =>
    (tables.frequencies place, counts place)
  return (drawsFor .wraps tables.blanks needs).getD 0

theorem letterValue_eq (bag : TileBag) (b : UInt8) :
    letterValue bag.tables b = pure (bag.letterValue b) := by
  unfold letterValue TileBag.letterValue
  cases hb : isUpper (upperByte b) with
  | false => rfl
  | true =>
    rw [if_pos rfl, if_pos rfl, letterPlace_eq hb, pure_bind]
    exact congrArg (fun l => pure (bag.values.value l)) (letterAt_place hb)

theorem pointValue_eq (bag : TileBag) (w : Word) :
    pointValue bag.tables w = pure (bag.pointValue w) := by
  rw [pointValue, mapM_eq fun b _ => letterValue_eq bag b, pure_bind, TileBag.pointValue,
    List.foldr_map]

theorem draws_eq (bag : TileBag) (w : Word) : draws bag.tables w = pure (bag.draws w) := by
  have hneeds : bag.needs w = ((List.finRange 26).filter fun place =>
      0 < w.letterCount (letterAt place)).map fun place =>
        (bag.frequency (letterAt place), w.letterCount (letterAt place)) := by
    rw [TileBag.needs, alphabet_eq_map, List.filter_map, List.map_map]
    rfl
  rw [draws, letterCounts_eq, pure_bind]
  exact congrArg (fun needs => pure ((drawsFor .wraps bag.blanks needs).getD 0)) hneeds.symm

end Checked

end WordStudy
