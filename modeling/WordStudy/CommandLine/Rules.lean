/-!
# Rules for command lines

What a command can be given: **options**, which are called by name and may take a value, and
**operands**, which stand alone and are told apart by their order.
-/

namespace WordStudy

/-- What an option or an operand takes. -/
inductive ValueKind where
  /-- No value at all: the option is there or not. -/
  | flag
  | text
  /-- The path of a file, which is not empty. -/
  | path
  /-- No value; the help is shown. -/
  | help
  deriving DecidableEq, Repr

def ValueKind.takesValue : ValueKind → Bool
  | text | path => true
  | flag | help => false

/-- A value may be given. -/
def ValueKind.accepts (kind : ValueKind) (value : String) : Bool := kind != path || value != ""

/-- An option. -/
structure OptionRule where
  /-- The name that follows two hyphens. -/
  name : String
  /-- The letter that may follow one hyphen instead. -/
  letter : Option Char := none
  kind : ValueKind := .flag
  /-- The option has to be given. -/
  required : Bool := false
  /-- The option may be given several times. -/
  repeats : Bool := false
  /-- What the option is for. -/
  about : String
  /-- Options with lower places are listed before it. -/
  place : Nat := 0
  deriving DecidableEq, Repr

namespace OptionRule

/-- The shortest name. -/
def label (option : OptionRule) : String :=
  option.letter.elim option.name fun letter => String.ofList [letter]

/-- One option may be listed before another: in one place, options stand in the order of their
labels. -/
def listedBefore (a b : OptionRule) : Bool :=
  a.place < b.place || a.place == b.place && decide (a.label ≤ b.label)

end OptionRule

/-- An operand. -/
structure OperandRule where
  name : String
  kind : ValueKind := .text
  /-- Any number of values may be given, and none. -/
  many : Bool := false
  about : String := ""
  deriving DecidableEq, Repr

/-- A command with what it can be given. -/
structure CommandRule where
  name : String
  about : String
  options : List OptionRule
  operands : List OperandRule
  deriving DecidableEq, Repr

namespace CommandRule

def named? (rule : CommandRule) (name : String) : Option OptionRule :=
  rule.options.find? (·.name == name)

def lettered? (rule : CommandRule) (letter : Char) : Option OptionRule :=
  rule.options.find? (·.letter == some letter)

/-- The operand to which the value with a number belongs. -/
def operand? (rule : CommandRule) (index : Nat) : Option OperandRule :=
  match rule.operands[index]? with
  | some operand => some operand
  | none => rule.operands.getLast?.filter (·.many)

end CommandRule

end WordStudy
