import WordStudy.Text.Blank
import WordStudy.Text.Numeral
import WordStudy.Word.Basic

/-!
# The tile bag

A bag holds so many tiles of each letter and some blanks, and each letter has a value. Both
are written as tables such as `A:9 B:2 _:2`, in which `_` is the blank. Where a table names a
letter twice, the **last entry counts**; a letter that it does not name counts zero.
-/

namespace WordStudy

open Text

/-- Why a letter table cannot be read. -/
inductive TableFault where
  /-- The entry has no colon. -/
  | badEntry (entry : String)
  /-- What stands before the colon is not one letter or `_`. -/
  | badLetter (letter : String)
  /-- What stands behind the colon is not a number of 32 bits. -/
  | badCount (entry : String)
  deriving DecidableEq, Repr

def TableFault.message : TableFault → String
  | .badEntry entry => s!"bad letter entry '{entry}'"
  | .badLetter letter => s!"bad letter '{letter}'"
  | .badCount entry => s!"bad count in '{entry}'"

def blankSign : UInt8 := 0x5F

/-- The numbers that a table gives, in the order of its entries. -/
abbrev LetterTable : Type := List (UInt8 × Nat)

namespace LetterTable

/-- The letter of an entry in upper case, or the sign of the blank. -/
def letter? : List Char → Option UInt8
  | [c] =>
    if c.isAlpha then some (upperByte (UInt8.ofNat c.toNat))
    else if c = '_' then some blankSign
    else none
  | _ => none

/-- One entry: a letter, a colon and a number. -/
def readEntry (entry : List Char) : Except TableFault (UInt8 × Nat) :=
  match cutAt (· == ':') entry with
  | none => .error (.badEntry (String.ofList entry))
  | some (sign, count) =>
    match letter? sign with
    | none => .error (.badLetter (String.ofList sign))
    | some letter =>
      -- The count comes last, so a bad letter is what is told first.
      match decimal32? count with
      | none => .error (.badCount (String.ofList entry))
      | some count => .ok (letter, count)

/-- The entries of a table, which white space separates. -/
def read (table : String) : Except TableFault LetterTable :=
  (words table.toList).mapM readEntry

/-- The number that the last entry for `sign` gives, else zero. -/
def value (table : LetterTable) (sign : UInt8) : Nat :=
  (table.reverse.lookup sign).getD 0

end LetterTable

/-- A bag of tiles and the values of the letters. -/
structure TileBag where
  tiles : LetterTable
  values : LetterTable
  deriving DecidableEq, Repr

namespace TileBag

/-- The usual English distribution. -/
def standardTiles : String :=
  "A:9 B:2 C:2 D:4 E:12 F:2 G:3 H:2 I:9 J:1 K:1 L:4 M:2 N:6 " ++
  "O:8 P:2 Q:1 R:6 S:4 T:6 U:4 V:2 W:2 X:1 Y:2 Z:1 _:2"

/-- The usual English letter values. -/
def standardValues : String :=
  "A:1 B:3 C:3 D:2 E:1 F:4 G:2 H:4 I:1 J:8 K:5 L:1 M:3 N:1 " ++
  "O:1 P:3 Q:10 R:1 S:1 T:1 U:1 V:4 W:4 X:8 Y:4 Z:10"

/-- The bag that two tables describe; a fault of the first is reported first. -/
def ofTables (tiles values : String) : Except TableFault TileBag := do
  let tiles ← LetterTable.read tiles
  let values ← LetterTable.read values
  return { tiles, values }

def blanks (bag : TileBag) : Nat := bag.tiles.value blankSign

def frequency (bag : TileBag) (l : UInt8) : Nat := bag.tiles.value l

/-- The value of a letter in either case; anything else is worth nothing. -/
def letterValue (bag : TileBag) (b : UInt8) : Nat :=
  if isUpper (upperByte b) then bag.values.value (upperByte b) else 0

/-- The sum of the letter values of a word, in 32 bits. As no value is negative, one of the sums on
the way is too great exactly if the last one is. -/
def pointValueIn (overflow : Overflow) (bag : TileBag) (w : Word) : Option Nat :=
  overflow.fit? maxWord32 (w.foldr (fun b sum => bag.letterValue b + sum) 0)

/-- **The points of a word**, where sums wrap round. -/
def pointValue (bag : TileBag) (w : Word) : Nat :=
  w.foldr (fun b sum => bag.letterValue b + sum) 0 % (maxWord32 + 1)

theorem pointValueIn_wraps (bag : TileBag) (w : Word) :
    bag.pointValueIn .wraps w = some (bag.pointValue w) := Overflow.wraps_fit? ..

end TileBag

end WordStudy
