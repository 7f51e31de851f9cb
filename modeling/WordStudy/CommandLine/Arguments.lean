import WordStudy.CommandLine.Rules
import WordStudy.Text.Blank

/-!
# Reading a command line

Arguments are read from left to right against the rules of a command. What begins with a hyphen
names options: two hyphens and a name, or one hyphen and **several letters**, of which the last
may be followed by its value. Two hyphens alone end the options.
-/

namespace WordStudy

open Text

/-! ## §1 Arguments -/

/-- The form of an argument. -/
inductive ArgumentForm where
  /-- A value or an operand; a hyphen alone is one as well. -/
  | value (text : String)
  /-- Two hyphens, a name and perhaps, behind `=`, a value. -/
  | named (name : String) (attached : Option String)
  /-- One hyphen and letters. -/
  | letters (letters : List Char)
  /-- Two hyphens. -/
  | delimiter
  deriving DecidableEq, Repr

/-- The form of a text. -/
def ArgumentForm.ofText (text : String) : ArgumentForm :=
  match text.toList with
  -- Two dashes alone end the options; what is behind them are operands.
  | ['-', '-'] => delimiter
  | '-' :: '-' :: name =>
    match cutAt (· == '=') name with
    | some (name, attached) => named (String.ofList name) (some (String.ofList attached))
    | none => named (String.ofList name) none
  | '-' :: letter :: more => letters (letter :: more)
  | _ => value text

/-- Why reading ends early. -/
inductive ReadingStop where
  /-- The arguments do not follow the rules. -/
  | refused
  /-- The help was asked for. -/
  | help
  deriving DecidableEq, Repr

/-! ## §2 What is given -/

/-- The options and operands that were given. -/
structure Given where
  /-- The options by their names, each with its value; flags have none. -/
  options : List (String × Option String)
  operands : List String
  deriving DecidableEq, Repr

namespace Given

def nothing : Given := ⟨[], []⟩

/-- The option was given. -/
def has (given : Given) (name : String) : Bool := given.options.any (·.1 == name)

/-- All values that were given for an option. -/
def values (given : Given) (name : String) : List String :=
  given.options.filterMap fun (given, value) => if given == name then value else none

/-- The value that was given for an option. -/
def value? (given : Given) (name : String) : Option String := (given.values name).head?

/-- One more option, with its value if it takes one. -/
def addOption (given : Given) (option : OptionRule) (value : Option String) :
    Except ReadingStop Given :=
  if option.kind = .help then .error .help
  else if given.has option.name && !option.repeats then .error .refused
  else if !value.all option.kind.accepts then .error .refused
  else .ok { given with options := given.options ++ [(option.name, value)] }

/-- One more operand. -/
def addOperand (rule : CommandRule) (given : Given) (value : String) : Except ReadingStop Given :=
  match rule.operand? given.operands.length with
  | none => .error .refused
  | some operand =>
    if operand.kind.accepts value then .ok { given with operands := given.operands ++ [value] }
    else .error .refused

/-- Everything that has to be given was given. -/
def isComplete (rule : CommandRule) (given : Given) : Bool :=
  (rule.options.all fun option => !option.required || given.has option.name) &&
    (rule.operands.filter (!·.many)).length ≤ given.operands.length

end Given

/-! ## §3 Reading -/

/-- What was given so far, and the option whose value comes next. -/
abbrev Reading : Type := Given × Option OptionRule

/-- Take an option that is called by its name. -/
def takeNamed (rule : CommandRule) (given : Given) (name : String) (attached : Option String) :
    Except ReadingStop Reading :=
  match rule.named? name with
  | none => .error .refused
  | some option =>
    if option.kind.takesValue then
      match attached with
      | some value => return (← given.addOption option (some value), none)
      -- Without a value of its own the option takes the next argument.
      | none => .ok (given, some option)
    -- An option without a value refuses one that is attached.
    else if attached.isSome then .error .refused
    else return (← given.addOption option none, none)

/-- Take options that are called by letters. A value may follow the letter at once or behind
`=`. -/
def takeLetters (rule : CommandRule) (given : Given) : List Char → Except ReadingStop Reading
  | [] => .ok (given, none)
  | letter :: rest =>
    match rule.lettered? letter with
    | none => .error .refused
    | some option =>
      if option.kind.takesValue then
        match rest with
        | [] => .ok (given, some option)
        | '=' :: value => return (← given.addOption option (some (String.ofList value)), none)
        | value => return (← given.addOption option (some (String.ofList value)), none)
      else do takeLetters rule (← given.addOption option none) rest

/-- **Read arguments.** Operands of the command are taken as well, unless the rules have none:
then the first operand and what follows it are left. -/
def readFrom (rule : CommandRule) :
    Reading → List String → Except ReadingStop (Given × List String)
  | (given, none), [] => .ok (given, [])
  | (_, some _), [] => .error .refused
  -- The option that was given last still waits for its value.
  | (given, some option), text :: rest =>
    match ArgumentForm.ofText text with
    | .value value => do readFrom rule (← given.addOption option (some value), none) rest
    | _ => .error .refused
  | (given, none), text :: rest =>
    match ArgumentForm.ofText text with
    | .value value =>
      -- A rule without operands leaves the rest to the command that is named here.
      if rule.operands.isEmpty then .ok (given, text :: rest)
      else do readFrom rule (← given.addOperand rule value, none) rest
    | .named name attached => do readFrom rule (← takeNamed rule given name attached) rest
    | .letters letters => do readFrom rule (← takeLetters rule given letters) rest
    | .delimiter => do
      if rule.operands.isEmpty && !rest.isEmpty then .error .refused
      else return (← rest.foldlM (Given.addOperand rule) given, [])

/-- Read the arguments of a command, to which all of them belong. -/
def CommandRule.read (rule : CommandRule) (arguments : List String) : Except ReadingStop Given := do
  let (given, left) ← readFrom rule (.nothing, none) arguments
  if left.isEmpty && given.isComplete rule then .ok given else .error .refused

end WordStudy
