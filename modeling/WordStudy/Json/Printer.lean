import WordStudy.Text.Hex

/-!
# Writing JSON

Flat objects and lists of them, one field on each line and indented by two spaces for each
level. Texts are quoted; only what must be escaped is escaped.
-/

namespace WordStudy.Json

/-- A value without parts. -/
inductive Scalar where
  | text (value : String)
  | number (value : Nat)
  | flag (value : Bool)
  deriving DecidableEq, Repr

abbrev Fields : Type := List (String × Scalar)

/-- A character of a quoted text. -/
def escape (c : Char) : List Char :=
  if c = '"' then ['\\', '"']
  else if c = '\\' then ['\\', '\\']
  else if c = '\x08' then ['\\', 'b']
  else if c = '\x0c' then ['\\', 'f']
  else if c = '\n' then ['\\', 'n']
  else if c = '\r' then ['\\', 'r']
  else if c = '\t' then ['\\', 't']
  else if c.toNat < 0x20 then ['\\', 'u'] ++ Text.hexDigits 4 c.toNat
  else [c]

def quote (text : String) : String :=
  String.ofList ('"' :: text.toList.flatMap escape ++ ['"'])

def Scalar.print : Scalar → String
  | text value => quote value
  | number value => toString value
  | flag value => if value then "true" else "false"

def indentation (level : Nat) : String := String.ofList (List.replicate (2 * level) ' ')

/-- Parts between two brackets, each on a line of its own. -/
def printParts (opening closing : String) (level : Nat) (parts : List String) : String :=
  if parts.isEmpty then opening ++ closing
  else
    opening ++ "\n" ++ ",\n".intercalate (parts.map (indentation (level + 1) ++ ·)) ++ "\n" ++
      indentation level ++ closing

def printObject (level : Nat) (fields : Fields) : String :=
  printParts "\x7b" "\x7d" level (fields.map fun (name, value) => quote name ++ ": " ++ value.print)

def printList (objects : List Fields) : String :=
  printParts "[" "]" 0 (objects.map (printObject 1))

end WordStudy.Json
