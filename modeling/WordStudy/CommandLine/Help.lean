import WordStudy.CommandLine.Rules

/-!
# Help

The rules of a command as text: what it is for, how it is used, and its operands and options in
columns.
-/

namespace WordStudy

/-- A name and what it stands for, as a line of a table. -/
abbrev HelpLine : Type := String × String

namespace HelpLine

def fill (width : Nat) (text : String) : String :=
  text ++ String.ofList (List.replicate (width - text.length) ' ')

/-- The lines of a table under a title, the texts in one column. -/
def table (title : String) (lines : List HelpLine) : String :=
  let width := lines.foldl (fun width line => max width line.1.length) 0
  title ++ ":" ++ String.join (lines.map fun line => "\n  " ++ fill width line.1 ++ "  " ++ line.2)

end HelpLine

namespace OptionRule

/-- The name of an option with a place for its value. -/
def usage (option : OptionRule) : String :=
  "--" ++ option.name ++ if option.kind.takesValue then s!" <{option.name.toUpper}>" else ""

def helpLine (option : OptionRule) : HelpLine :=
  ((match option.letter with
    | some letter => String.ofList ['-', letter, ',', ' ']
    | none => "    ") ++ option.usage, option.about)

end OptionRule

/-- An operand with signs that tell whether it has to be given, and how often. -/
def OperandRule.usage (operand : OperandRule) : String :=
  if operand.many then s!"[{operand.name}]..." else s!"<{operand.name}>"

namespace CommandRule

/-- How a command is used. -/
def usage (rule : CommandRule) (program : String) : String :=
  " ".intercalate
    (["Usage:", program, rule.name, if rule.options.isEmpty then "" else "[OPTIONS]"].filter
        (!·.isEmpty) ++
      (rule.options.filter (·.required)).map (·.usage) ++ rule.operands.map (·.usage))

def operandTable (rule : CommandRule) : String :=
  HelpLine.table "Arguments" (rule.operands.map fun operand => (operand.usage, operand.about))

def optionTable (rule : CommandRule) : String :=
  HelpLine.table "Options" ((rule.options.mergeSort OptionRule.listedBefore).map (·.helpLine))

/-- The parts of a help text, with an empty line between each two. -/
def paragraphs (parts : List String) : String := "\n\n".intercalate parts ++ "\n"

/-- **The help for a command.** -/
def help (rule : CommandRule) (program : String) : String :=
  paragraphs ([rule.about, rule.usage program] ++
    (if rule.operands.isEmpty then [] else [rule.operandTable]) ++
    (if rule.options.isEmpty then [] else [rule.optionTable]))

/-- The help for a program with commands; `rule` holds what may stand before the command. -/
def programHelp (rule : CommandRule) (program : String) (commands : List CommandRule) : String :=
  paragraphs [rule.about, rule.usage program ++ " <COMMAND>",
    HelpLine.table "Commands" (commands.map fun command => (command.name, command.about)),
    rule.optionTable]

end CommandRule

end WordStudy
