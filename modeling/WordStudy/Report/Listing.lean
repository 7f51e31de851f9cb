import WordStudy.Report.Style
import WordStudy.Text.Blank

/-!
# Listings

The results of searches and questions, one word on each line. In a listing of **details** the
front hooks are aligned to the right, and the lines of a definition stand below each other.
-/

namespace WordStudy

open Text

/-- A word with what a listing of details shows. -/
structure WordDetails where
  word : String
  frontHooks : String := ""
  backHooks : String := ""
  rank : Option Nat := none
  definition : Option String := none
  deriving DecidableEq, Repr

namespace Listing

def newline : Span := .plain "\n"

def spaces (n : Nat) : String := String.ofList (List.replicate n ' ')

def alignRight (width : Nat) (text : String) : String := spaces (width - text.length) ++ text

def word (text : String) : Span := .styled .green true text

def ofWords (words : List String) : List Span := words.flatMap fun w => [word w, newline]

/-- The lines of a text. A line feed ends a line, and a carriage return before it belongs to
it. -/
def textLines (text : String) : List String :=
  let ended (line : List Char) : List Char :=
    if line.getLast? = some '\r' then line.dropLast else line
  let pieces := splitBy (· == '\n') text.toList
  let last := pieces.getLast?.getD []
  (pieces.dropLast.map ended ++ (if last.isEmpty then [] else [last])).map String.ofList

/-- A definition, its first line behind the word and the others below it. -/
def definitionText (indent : Nat) (definition : String) : String :=
  match textLines definition with
  | [] => ""
  | first :: rest => "  " ++ first ++ String.join (rest.map fun line => "\n" ++ spaces indent ++ line)

/-- The details of a word, its front hooks in a column of some width. -/
def detailLine (width : Nat) (d : WordDetails) : List Span :=
  [.styled .cyan false (alignRight width d.frontHooks), .plain " ", word d.word, .plain " ",
    .styled .cyan false d.backHooks] ++
  (d.rank.elim [] fun rank => [.styled .yellow false s!"  #{rank}"]) ++
  (d.definition.elim [] fun text =>
    [.plain (definitionText (width + d.word.utf8ByteSize + 4) text)]) ++
  [newline]

/-- **A list of details.** The column of front hooks is as wide as the longest ones. -/
def ofDetails (details : List WordDetails) : List Span :=
  let width := details.foldl (fun width d => max width d.frontHooks.utf8ByteSize) 0
  details.flatMap (detailLine width)

/-- Whether words are valid. -/
def ofJudgement (results : List (String × Bool)) : List Span :=
  results.flatMap fun (w, valid) =>
    [.plain s!"{w}: ",
      if valid then .styled .green true "valid" else .styled .red true "not valid", newline]

/-- The details of words, and then the words that are not valid. -/
def ofInfo (details : List WordDetails) (rejected : List String) : List Span :=
  ofDetails details ++ ofJudgement (rejected.map fun w => (w, false))

end Listing

end WordStudy
