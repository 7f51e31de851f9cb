import WordStudy.Search.Spec
import WordStudy.Text.Blank
import WordStudy.Text.Lowercase

/-!
# Query texts

A query is a row of terms between white space, such as `pattern:C?T -set:hook-words
length:3-5 | limit:1-100`. A term is `field:value`, or a pattern alone; a `-` in front negates
it, and a `|` anywhere turns the whole query into a choice. A range is `N`, `A-B` or `A-`.
Terms are read from the left, and the **first fault** is reported.
-/

namespace WordStudy

open Text

/-- Why a query cannot be read. -/
inductive QueryFault where
  | emptySearch
  | danglingMinus
  | notNegatable (term : String)
  | needsValue (field : String)
  | needsLetters
  | unknownSet (value : String)
  | unknownField (field : String)
  | badNumber (text : String)
  | emptyRange (value : String)
  deriving DecidableEq, Repr

/-- The fault in words. -/
def QueryFault.message : QueryFault → String
  | .emptySearch => "empty search"
  | .danglingMinus => "dangling '-'"
  | .notNegatable term => s!"'{term}' cannot be negated"
  | .needsValue field => s!"{field}: needs a value"
  | .needsLetters => "consist: needs letters"
  | .unknownSet value => s!"unknown set '{value}'"
  | .unknownField field => s!"unknown field '{field}'"
  | .badNumber text => s!"bad number '{text}'"
  | .emptyRange value => s!"empty range '{value}'"

namespace Query

/-- A number of 32 bits. -/
def readNumber (text : List Char) : Except QueryFault Nat :=
  match decimal32? text with
  | some n => .ok n
  | none => .error (.badNumber (String.ofList text))

/-- A range: `N`, `A-B` or `A-`. -/
def readRange (value : List Char) : Except QueryFault Bounds := do
  let range ←
    match cutAt (· == '-') value with
    -- A sign without a second number leaves the range open.
    | some (least, []) => do pure (Bounds.atLeast (← readNumber least))
    | some (least, greatest) => do
      let least ← readNumber least
      let greatest ← readNumber greatest
      pure ⟨least, greatest⟩
    | none => do pure (Bounds.exactly (← readNumber value))
  if range.isEmpty then .error (.emptyRange (String.ofList value)) else .ok range

/-- A value that must not be empty, in upper case. -/
def readText (field value : List Char) : Except QueryFault String :=
  if value.isEmpty then .error (.needsValue (String.ofList field))
  else .ok (String.ofList value).toUpper

/-- The letters of a `consist` term and the lengths behind a colon; without them, any length
up to the number of bytes, which is **cut to 32 bits**. -/
def readConsist (value : List Char) : Except QueryFault Condition := do
  let (letters, lengths?) ←
    match cutAt (· == ':') value with
    | some (letters, lengths) => do pure (letters, some (← readRange lengths))
    | none => pure (value, none)
  if letters.isEmpty then .error .needsLetters
  else
    -- Without lengths any length up to that of the letters will do.
    let size := (String.ofList letters).utf8ByteSize % (maxWord32 + 1)
    let lengths := lengths?.getD ⟨1, size⟩
    .ok (.consist (String.ofList letters).toUpper lengths false)

/-- The condition of a field and a value. -/
def readField (field value : List Char) : Except QueryFault Condition :=
  match String.ofList (lower field) with
  | "pattern" | "p" => do pure (.pattern (← readText field value) false)
  | "anagram" | "a" => do pure (.anagram (← readText field value) false)
  | "subanagram" | "sub" => do pure (.subanagram (← readText field value) false)
  | "consist" => readConsist value
  | "length" | "len" => do pure (.length (← readRange value))
  | "include" => do pure (.containing (← readText field value) false)
  | "prefix" => do pure (.takesFront (← readText field value) false)
  | "suffix" => do pure (.takesBack (← readText field value) false)
  | "vowels" => do pure (.vowels (← readRange value))
  | "unique" => do pure (.distinct (← readRange value))
  | "points" => do pure (.points (← readRange value))
  | "anagrams" => do pure (.anagrams (← readRange value))
  | "prob" => do pure (.rank (← readRange value) false)
  | "problax" => do pure (.rank (← readRange value) true)
  | "set" =>
    match StudySet.ofName? (String.ofList value) with
    | some set => .ok (.inSet set false)
    | none => .error (.unknownSet (String.ofList value))
  | "list" =>
    let words := (splitBy (· == ',') value).filter (!·.isEmpty)
    .ok (.inList (words.map fun w => (String.ofList w).toUpper) false)
  | "limit" => do pure (.window (← readRange value) false false)
  | "limitlax" => do pure (.window (← readRange value) true false)
  | "limitlegacy" => do pure (.window (← readRange value) false true)
  | other => .error (.unknownField other)

/-- The condition of a term without its sign; a term without a colon is a pattern as it
stands. -/
def readPositive (term : List Char) : Except QueryFault Condition :=
  match cutAt (· == ':') term with
  | some (field, value) => readField field value
  | none => if term.isEmpty then .error .danglingMinus else .ok (.pattern (String.ofList term) false)

/-- The condition of a term. -/
def readTerm : List Char → Except QueryFault Condition
  | '-' :: term => do
    let condition ← readPositive term
    if condition.negate.isNegated then .ok condition.negate
    else .error (.notNegatable (String.ofList term))
  | term => readPositive term

def endsTerm (c : Char) : Bool := isBlank c || c == '|'

def terms (text : List Char) : List (List Char) := (splitBy endsTerm text).filter (!·.isEmpty)

/-- **Read a query.** -/
def read (text : String) : Except QueryFault SearchSpec :=
  match terms text.toList with
  | [] => .error .emptySearch
  | terms => do
    let conditions ← terms.mapM readTerm
    pure ⟨conditions, !text.toList.contains '|'⟩

end Query

/-- The query that writes a specification: its terms, and a `|` behind them for a choice. -/
def SearchSpec.text (spec : SearchSpec) : String :=
  let terms := " ".intercalate (spec.conditions.map Condition.text)
  if spec.conjunction then terms else terms ++ " |"

end WordStudy
