import WordStudy.Json.Printer
import WordStudy.Json.Scan
import WordStudy.Settings.Basic

/-!
# Settings as text

Settings are written as a JSON object with seven fields. When they are read, fields that are
missing keep their **usual values**, fields of other names do not matter, and no field may stand
twice. A list of values in the order of the fields is read as well.
-/

namespace WordStudy

open Json

/-- A field of the settings. -/
inductive SettingsField where
  | alphabet
  | tiles
  | values
  | typeTwoLetters
  | typeThreeSeven
  | typeThreeEight
  | maxWordLength
  deriving DecidableEq, Repr

namespace SettingsField

/-- All fields, in the order in which they are written. -/
def all : List SettingsField :=
  [alphabet, tiles, values, typeTwoLetters, typeThreeSeven, typeThreeEight, maxWordLength]

/-- The name of a field. -/
def key : SettingsField → String
  | alphabet => "alphabet"
  | tiles => "letter_distribution"
  | values => "letter_values"
  | typeTwoLetters => "type_two_letters"
  | typeThreeSeven => "type_three_seven_reference"
  | typeThreeEight => "type_three_eight_reference"
  | maxWordLength => "max_word_length"

def ofKey? (key : String) : Option SettingsField := all.find? (·.key == key)

/-- What a field holds. -/
def value (s : Settings) : SettingsField → Scalar
  | alphabet => .text s.alphabet
  | tiles => .text s.tiles
  | values => .text s.values
  | typeTwoLetters => .text s.typeTwoLetters
  | typeThreeSeven => .text s.typeThreeSeven
  | typeThreeEight => .text s.typeThreeEight
  | maxWordLength => .number s.maxWordLength

/-- Read the value of a field. -/
def read (s : Settings) : SettingsField → Reader Settings
  | alphabet => return { s with alphabet := ← readString }
  | tiles => return { s with tiles := ← readString }
  | values => return { s with values := ← readString }
  | typeTwoLetters => return { s with typeTwoLetters := ← readString }
  | typeThreeSeven => return { s with typeThreeSeven := ← readString }
  | typeThreeEight => return { s with typeThreeEight := ← readString }
  | maxWordLength => return { s with maxWordLength := ← readNatural }

end SettingsField

namespace Settings

/-! ## §1 Writing -/

/-- **The settings as text.** -/
def text (s : Settings) : String :=
  printObject 0 (SettingsField.all.map fun field => (field.key, field.value s))

/-! ## §2 Reading -/

/-- Take the opening quote of the next key; there is none at the end of the object. -/
def nextKey (first : Bool) : Reader Bool := do
  match ← Reader.peekPart with
  | none => Reader.failAtNext .endInObject
  | some 0x7D => return false
  | some b =>
    if !first then
      if b ≠ 0x2C then Reader.failAtNext .expectedObjectEnd
      Reader.skip 1
    match ← Reader.peekPart with
    | some 0x22 =>
      Reader.skip 1
      return true
    | some 0x7D => Reader.failAtNext .trailingComma
    | some _ => Reader.failAtNext .keyNotText
    | none => Reader.failAtNext .endInValue

/-- Fail for a field that stands twice, at the end of the object if it follows. -/
def failRepeated {α : Type} (field : SettingsField) : Reader α := do
  if (← Reader.peekPart) = some 0x7D then Reader.skip 1
  Reader.fail (.repeatedField field.key)

/-- Read the fields of an object up to its end, with a bound on their number. -/
def readFields : Nat → Bool → List SettingsField → Settings → Reader Settings
  | 0, _, _, s => pure s
  | bound + 1, first, seen, s => do
    if !(← nextKey first) then
      Reader.skip 1
      return s
    match SettingsField.ofKey? (← readText) with
    | some field =>
      -- A key may be given once, and keys of no field are passed over.
      if seen.contains field then failRepeated field
      else
        expectColon
        readFields bound false (field :: seen) (← field.read s)
    | none =>
      expectColon
      passAny
      readFields bound false seen s

/-- There is one more value in a list. -/
def nextValue (first : Bool) : Reader Bool := do
  match ← Reader.peekPart with
  | none => Reader.failAtNext .endInList
  | some 0x5D => return false
  | some b =>
    if first then return true
    else if b ≠ 0x2C then Reader.failAtNext .expectedListEnd
    else
      Reader.skip 1
      match ← Reader.peekPart with
      | some 0x5D => Reader.failAtNext .trailingComma
      | some _ => return true
      | none => Reader.failAtNext .endInValue

/-- Read the values of a list, which are those of the first fields. -/
def readValues : List SettingsField → Bool → Settings → Reader Settings
  | [], _, s => pure s
  | field :: fields, first, s => do
    if ← nextValue first then readValues fields false (← field.read s) else return s

/-- Take the end of a list. -/
def endList : Reader Unit := do
  match ← Reader.peekPart with
  | some 0x5D => Reader.skip 1
  | some 0x2C =>
    Reader.skip 1
    Reader.failAtNext (if (← Reader.peekPart) = some 0x5D then .trailingComma else .trailingText)
  | some _ => Reader.failAtNext .trailingText
  | none => Reader.failAtNext .endInList

/-- Read settings up to the end of the text. -/
def reader : Reader Settings := do
  let s ←
    match ← Reader.peekPart with
    | none => Reader.failAtNext .endInValue
    | some 0x7B =>
      Reader.skip 1
      readFields ((← Reader.left) + 1) true [] standard
    | some 0x5B =>
      Reader.skip 1
      -- The fields may be given in their order without their keys.
      let s ← readValues SettingsField.all true standard
      endList
      pure s
    | some _ => failAtValue "struct EngineConfig"
  if (← Reader.peekPart).isSome then Reader.failAtNext .trailingText else pure s

/-- **Read settings**; what they mean is not checked. -/
def read (text : String) : Except Placed Settings :=
  let bytes := Text.Utf8.bytesOf text
  match reader ⟨bytes, 0⟩ with
  | .ok (s, _) => .ok s
  | .error fault => .error (fault.place bytes)

end Settings

end WordStudy
