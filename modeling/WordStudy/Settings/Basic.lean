import WordStudy.Tiles.Bag

/-!
# Settings

What can be set for all lexicons: the letters that words may have, the tile bag, the words and
letters that bound study sets, and the greatest length of a word.
-/

namespace WordStudy

/-- The settings of an engine. -/
structure Settings where
  /-- The letters of which words are made; other words are not imported. -/
  alphabet : String := "ABCDEFGHIJKLMNOPQRSTUVWXYZ"
  /-- The table of tile counts. -/
  tiles : String := TileBag.standardTiles
  /-- The table of letter values. -/
  values : String := TileBag.standardValues
  /-- The pool of letters of which type-two words are drawn. -/
  typeTwoLetters : String := "AAADEEEEGIIILNNOORRSSTTU"
  /-- The word of seven letters that is the least likely of type three. -/
  typeThreeSeven : String := "HUNTERS"
  /-- The word of eight letters that is the least likely of type three. -/
  typeThreeEight : String := "NOTIFIED"
  /-- The length that no imported word exceeds. -/
  maxWordLength : Nat := 15
  deriving DecidableEq, Repr

namespace Settings

/-- The usual settings. -/
def standard : Settings := {}

def bag (s : Settings) : Except TableFault TileBag := TileBag.ofTables s.tiles s.values

end Settings

end WordStudy
