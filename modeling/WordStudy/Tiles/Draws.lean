import WordStudy.Tiles.Bag
import WordStudy.Word.Letters

/-!
# Draws

How many ways there are to draw the letters of a word from a bag, **blanks standing in for
any letter**. The count is the sum, over the number of blanks used and over the letters that
they replace, of products of binomial coefficients. All counts are capped at `maxWord64`.
-/

namespace WordStudy

open Text

/-- A sum that is capped. -/
def cappedAdd (a b : Nat) : Nat := min (a + b) maxWord64

/-- A product that is capped. -/
def cappedMul (a b : Nat) : Nat := min (a * b) maxWord64

/-- The largest number of 128 bits, in which coefficients are computed. -/
def maxWord128 : Nat := 0xFFFFFFFFFFFFFFFFFFFFFFFFFFFFFFFF

/-- What becomes of `result` in the `left` steps from step `i` on. Each multiplies by one factor in
128 bits and divides at once. -/
def chooseFrom (overflow : Overflow) (n : Nat) : Nat → Nat → Nat → Option Nat
  | 0, _, result => some result
  | left + 1, i, result => do
    let product ← overflow.fit? maxWord128 (result * (n - i))
    chooseFrom overflow n left (i + 1) (product / (i + 1))

/-- The product of the first `steps` factors of the coefficient. -/
def chooseSteps (overflow : Overflow) (n steps : Nat) : Option Nat :=
  chooseFrom overflow n steps 0 1

@[simp] theorem chooseSteps_zero (overflow : Overflow) (n : Nat) :
    chooseSteps overflow n 0 = some 1 := rfl

/-- The last step comes behind all others. -/
theorem chooseSteps_succ (overflow : Overflow) (n steps : Nat) :
    chooseSteps overflow n (steps + 1) = (do
      let before ← chooseSteps overflow n steps
      let product ← overflow.fit? maxWord128 (before * (n - steps))
      return product / (steps + 1)) := by
  -- Steps are done from the front, so that the step they begin at and its result vary.
  have hfrom (i result : Nat) : chooseFrom overflow n (steps + 1) i result = (do
      let before ← chooseFrom overflow n steps i result
      let product ← overflow.fit? maxWord128 (before * (n - (i + steps)))
      return product / (i + steps + 1)) := by
    induction steps generalizing i result with
    | zero => rfl
    | succ steps ih =>
      rw [chooseFrom, chooseFrom, bind_assoc]
      refine bind_congr fun product => ?_
      rw [ih, Nat.succ_add_eq_add_succ]
  rw [chooseSteps, hfrom, Nat.zero_add]
  rfl

/-- **The binomial coefficient**, zero when `k` exceeds `n`, capped. -/
def choose (overflow : Overflow) (n k : Nat) : Option Nat :=
  if n < k then some 0
  else (chooseSteps overflow n (min k (n - k))).map (min · maxWord64)

/-- The ways to draw the `needed` letters when exactly `blanks` of them are replaced by
blanks. Each entry gives the tiles in the bag and the letters needed of one kind. -/
def replacementDraws (overflow : Overflow) : List (Nat × Nat) → Nat → Option Nat
  | [], blanks => some (if blanks = 0 then 1 else 0)
  | (tiles, needed) :: rest, blanks =>
    (List.range (min blanks needed + 1)).foldlM
      (fun sum replaced => do
        let here ← choose overflow tiles (needed - replaced)
        -- Without a way to draw this letter the others do not matter.
        if here = 0 then return sum
        else
          let behind ← replacementDraws overflow rest (blanks - replaced)
          return cappedAdd sum (cappedMul here behind))
      0

/-- The number of draws for letters of which the bag has some and some are needed. -/
def drawsFor (overflow : Overflow) (blanks : Nat) (needs : List (Nat × Nat)) : Option Nat :=
  let letters := needs.foldr (fun need sum => need.2 + sum) 0
  (List.range (min blanks letters + 1)).foldlM
    (fun total used => do
      let ways ← replacementDraws overflow needs used
      let chosen ← choose overflow blanks used
      return cappedAdd total (cappedMul ways chosen))
    0

namespace TileBag

/-- The tiles in the bag and the letters needed, for each letter of the word. -/
def needs (bag : TileBag) (w : Word) : List (Nat × Nat) :=
  (alphabet.filter fun l => 0 < w.letterCount l).map fun l => (bag.frequency l, w.letterCount l)

/-- The number of draws that give the letters of `w`; characters that are no letters do not
matter. -/
def drawsIn (overflow : Overflow) (bag : TileBag) (w : Word) : Option Nat :=
  drawsFor overflow bag.blanks (bag.needs w)

/-- **The number of draws**, where products wrap round. -/
def draws (bag : TileBag) (w : Word) : Nat := (bag.drawsIn .wraps w).getD 0

end TileBag

end WordStudy
