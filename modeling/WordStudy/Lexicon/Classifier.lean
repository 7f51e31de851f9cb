import WordStudy.Graph.Vocabulary
import WordStudy.Lexicon.Stems
import WordStudy.Search.StudySet
import WordStudy.Settings.Basic
import WordStudy.Tiles.Draws

/-!
# Membership of study sets

- A **hook word** is a word without its first or its last letter, too.
- A **high five** has five letters worth at most 5 each, the first or the last of them at
  least 4.
- A word of seven or eight letters is of **type one** if it extends a stem of six letters, of
  **type two** if it is drawn from a pool of common letters, and of **type three** if it is as
  likely as a reference word. It is only of the first type that fits.

Only words of ASCII letters are in any set.
-/

namespace WordStudy

/-- What decides about membership apart from the words and stems. -/
structure Classifier where
  bag : TileBag
  /-- The pool of type-two words. -/
  pool : Word
  /-- The least number of draws of a type-three word of seven letters. -/
  leastSeven : Nat
  /-- The least number of draws of a type-three word of eight letters. -/
  leastEight : Nat
  deriving Repr

namespace Classifier

/-- The classifier that the settings describe. -/
def ofSettings (settings : Settings) (bag : TileBag) : Classifier where
  bag
  pool := (Word.ofText settings.typeTwoLetters).upper
  leastSeven := bag.draws (Word.ofText settings.typeThreeSeven)
  leastEight := bag.draws (Word.ofText settings.typeThreeEight)

/-- Five letters worth at most 5 each, the first or the last worth 4 or 5. -/
def isHighFive (c : Classifier) (w : Word) : Bool :=
  match w.map c.bag.letterValue with
  | [a, b, d, e, f] => [a, b, d, e, f].all (· ≤ 5) && (4 ≤ a || 4 ≤ f)
  | _ => false

/-- The word extends a stem of six letters. -/
def isTypeOne (stems : StemIndex) (w : Word) : Bool :=
  (w.length == 7 && stems.oneShort w) || (w.length == 8 && stems.twoShort w)

/-- The word is drawn from the pool and not of type one. -/
def isTypeTwo (c : Classifier) (stems : StemIndex) (w : Word) : Bool :=
  w.fitsIn c.pool && !isTypeOne stems w

/-- The word has at least so many draws and is of no other type. -/
def isTypeThree (c : Classifier) (stems : StemIndex) (least : Nat) (w : Word) : Bool :=
  least ≤ c.bag.draws w && !isTypeOne stems w && !c.isTypeTwo stems w

/-- **The word belongs to the set.** -/
def member (c : Classifier) (v : Vocabulary) (stems : StemIndex) (set : StudySet) (w : Word) :
    Bool :=
  let w' := w.upper
  -- A word with a byte outside ASCII is in no set.
  w.isAscii &&
    match set with
    | .hookWords => v.isFrontHook w' || v.isBackHook w'
    | .frontHooks => v.isFrontHook w'
    | .backHooks => v.isBackHook w'
    | .highFives => c.isHighFive w'
    | .typeOneSevens => w'.length == 7 && isTypeOne stems w'
    | .typeOneEights => w'.length == 8 && isTypeOne stems w'
    | .typeTwoSevens => w'.length == 7 && c.isTypeTwo stems w'
    | .typeTwoEights => w'.length == 8 && c.isTypeTwo stems w'
    | .typeThreeSevens => w'.length == 7 && c.isTypeThree stems c.leastSeven w'
    | .typeThreeEights => w'.length == 8 && c.isTypeThree stems c.leastEight w'
    | .eightsFromSevenLetterStems => w'.length == 8 && stems.oneShort w'

/-- The sets that the word belongs to, in the order of all sets. -/
def sets (c : Classifier) (v : Vocabulary) (stems : StemIndex) (w : Word) : List StudySet :=
  StudySet.all.filter fun set => c.member v stems set w

end Classifier

end WordStudy
