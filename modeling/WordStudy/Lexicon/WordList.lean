import WordStudy.Text.Blank
import WordStudy.Text.Utf8
import WordStudy.Word.Basic

/-!
# Word lists

A list file has one word on each line, at its start; in a word list, the rest of the line is
the **definition**. Lines without words and lines that begin with `#` do not count, and white
space within a line does not matter. Bytes that form no character show as U+FFFD.
-/

namespace WordStudy

open Text

/-- A line of a word list. -/
structure WordEntry where
  /-- The word in upper case. -/
  word : Word
  definition : Option String
  deriving DecidableEq, Repr

namespace WordList

/-- The lines of a file, cut at line feeds. -/
def rawLines (bytes : List UInt8) : List (List UInt8) :=
  match bytes with
  | [] => [[]]
  | b :: rest =>
    match rawLines rest with
    | [] => [[b]]
    | line :: lines => if b = 0x0A then [] :: line :: lines else (b :: line) :: lines

/-- The lines that count, without the white space at their ends. -/
def lines (bytes : List UInt8) : List (List Char) :=
  ((rawLines bytes).map fun line => trim (Utf8.characters line)).filter fun line =>
    !line.isEmpty && line.head? != some '#'

/-- The entry that a line writes. -/
def entryOf (line : List Char) : WordEntry :=
  match cutAt isBlank line with
  | none => ⟨(Word.ofText (String.ofList line)).upper, none⟩
  | some (word, rest) =>
    let definition := join [' '] (words rest)
    ⟨(Word.ofText (String.ofList word)).upper,
      if definition.isEmpty then none else some (String.ofList definition)⟩

/-- **The entries of a word list.** -/
def entries (bytes : List UInt8) : List WordEntry := (lines bytes).map entryOf

/-- The stems of a stem list: the first word of each line, as written. -/
def stems (bytes : List UInt8) : List Word :=
  (lines bytes).filterMap fun line =>
    (words line).head?.map fun stem => Word.ofText (String.ofList stem)

end WordList

end WordStudy
