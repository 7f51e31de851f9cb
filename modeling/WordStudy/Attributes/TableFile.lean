import WordStudy.Attributes.Store
import WordStudy.Text.Numeral

/-!
# Table files

A table of attributes as a file: a mark, and then the fields of all rows. A **field** is the
number of its bytes in decimal, a colon, and the bytes.
-/

namespace WordStudy

open Text

namespace TableFile

def magic : List UInt8 := Word.ofText "WordStudy table\n"

/-- The byte between the length of a field and the field. -/
def colon : UInt8 := 0x3A

def writeField (field : List UInt8) : List UInt8 :=
  Word.ofText (toString field.length) ++ colon :: field

/-- Read a field from the front, and what follows it. -/
def readField (bytes : List UInt8) : Option (List UInt8 × List UInt8) := do
  let length ← decimal32? (Utf8.characters (bytes.takeWhile (· ≠ colon)))
  match bytes.dropWhile (· ≠ colon) with
  | [] => none
  | _ :: rest => if rest.length < length then none else some (rest.take length, rest.drop length)

def rowFields (row : Row) : List (List UInt8) := Column.all.map fun column => (row.cell column).bytes

def numberOf (field : List UInt8) : Option Nat := decimal32? (Utf8.characters field)

/-- The row with the given fields. -/
def rowOf (fields : List (List UInt8)) : Option Row := do
  let field (c : Column) : Option (List UInt8) := fields[Column.all.idxOf c]?
  let number (c : Column) : Option Nat := (field c).bind numberOf
  let text (c : Column) : Option String := (field c).map Word.text
  pure
    { word := ← field .word
      length := ← number .length
      rank := ← number .rank
      firstTied := ← number .firstTied
      lastTied := ← number .lastTied
      vowels := ← number .vowels
      distinct := ← number .distinct
      anagrams := ← number .anagrams
      points := ← number .points
      frontHooks := ← text .frontHooks
      backHooks := ← text .backHooks
      isFrontHook := (← number .isFrontHook) != 0
      isBackHook := (← number .isBackHook) != 0
      symbols := ← text .symbols
      definition := ← text .definition }

/-- Read so many fields from the front, and what follows them. -/
def readFields : Nat → List UInt8 → Option (List (List UInt8) × List UInt8)
  | 0, bytes => some ([], bytes)
  | n + 1, bytes => do
    let (field, rest) ← readField bytes
    let (fields, rest) ← readFields n rest
    pure (field :: fields, rest)

/-- Read all rows; each takes at least one byte, of which `left` are left at most. -/
def readRows : Nat → List UInt8 → Option (List Row)
  | _, [] => some []
  | 0, _ :: _ => none
  | left + 1, bytes => do
    let (fields, rest) ← readFields Column.all.length bytes
    let row ← rowOf fields
    let rows ← readRows left rest
    pure (row :: rows)

def encode (t : AttributeTable) : List UInt8 :=
  magic ++ t.toList.flatMap fun row => (rowFields row).flatMap writeField

/-- **The table of a file**, `none` if the file is something else. -/
def decode (bytes : List UInt8) : Option AttributeTable :=
  if bytes.take magic.length = magic then
    let body := bytes.drop magic.length
    (readRows body.length body).map AttributeTable.empty.insert
  else none

end TableFile

end WordStudy
