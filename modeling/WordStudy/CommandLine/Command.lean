import WordStudy.Attributes.Address
import WordStudy.CommandLine.Arguments
import WordStudy.CommandLine.Help

/-!
# Commands

What the program can be told to do. A command line is a command with its arguments; options
for **all commands** may stand before the command as well as behind it.
-/

namespace WordStudy

/-! ## §1 What is to be done -/

/-- Where the words come from and what else is known about them. -/
structure LexiconSource where
  /-- The path of a word list or of an image. -/
  lexicon : String
  /-- The image spells words backwards. -/
  backwards : Bool := false
  /-- The checksum that the image is to have, as it was written. -/
  checksum : Option String := none
  /-- The path of an attribute store. -/
  store : Option String := none
  /-- The paths of stem lists. -/
  stems : List String := []
  deriving DecidableEq, Repr

/-- How words that were found are shown. -/
inductive SearchView where
  | words
  | details
  | rows
  deriving DecidableEq, Repr

/-- What the program is told to do. -/
inductive Command where
  /-- Write the image of a word list. -/
  | compile (words output : String) (backwards : Bool)
  /-- Write the attribute store of a word list. -/
  | buildIndex (words output : String) (references : List String)
  /-- Show the words that a query finds. -/
  | search (query : String) (source : LexiconSource) (view : SearchView)
      (plain showWildcards : Bool)
  /-- Tell which words are valid. -/
  | judge (words : List String) (source : LexiconSource)
  /-- Show the details of words. -/
  | info (words : List String) (source : LexiconSource)
  /-- Show the settings, and perhaps write them to their file. -/
  | settings (write : Bool)
  deriving DecidableEq, Repr

/-- A command line that was understood. -/
structure Invocation where
  command : Command
  /-- The path of the file with the settings, if it is not the usual one. -/
  settingsPath : Option String := none
  deriving DecidableEq, Repr

/-! ## §2 Paths -/

/-- The path of the store with an address, if the address means anything. -/
def storePath? (address : String) : Option String :=
  (StoreAddress.read .create address).toOption.map (·.path)

def LexiconSource.paths (source : LexiconSource) : List String :=
  source.lexicon :: (source.store.bind storePath?).toList ++ source.stems

/-- The symbol and the path of a reference list, which is given as `SYMBOL=PATH`. -/
def splitReference (reference : String) : Option (String × String) :=
  (Text.cutAt (· == '=') reference.toList).map fun (symbol, path) =>
    (String.ofList symbol, String.ofList path)

/-- The paths of all files that a command names. -/
def Command.paths : Command → List String
  | compile words output _ => [words, output]
  | buildIndex words output references =>
    [words, output] ++ (storePath? output).toList ++
      references.filterMap fun reference => (splitReference reference).map (·.2)
  | search _ source _ _ _ => source.paths
  | judge _ source => source.paths
  | info _ source => source.paths
  | settings _ => []

/-! ## §3 Rules -/

namespace CommandRule

def programName : String := "lexdex"

/-- The option that shows the help, which is listed last. -/
def helpOption : OptionRule :=
  { name := "help", letter := some 'h', kind := .help, about := "Print help", place := 999 }

/-- The options for all commands; their places are those behind as many as there are commands. -/
def sharedOptions : List OptionRule :=
  [{ name := "config", kind := .path
     about := "Config file (defaults to the app data directory)", place := 6 },
    { name := "quiet", letter := some 'q', about := "Hide progress spinners", place := 7 },
    helpOption]

/-- The rules of a command; its own options have the places from the first on, in order. -/
def make (name about : String) (options : List OptionRule) (operands : List OperandRule) :
    CommandRule :=
  { name, about, operands
    options := options.mapIdx (fun place option => { option with place }) ++ sharedOptions }

def outputOption (about : String) : OptionRule :=
  { name := "output", letter := some 'o', kind := .path, required := true, about }

/-- The options that tell where the words come from. -/
def sourceOptions : List OptionRule :=
  [{ name := "lexicon", letter := some 'l', kind := .path, required := true
     about := "Word list, or serialized graph (`.dawg`)" },
    { name := "reversed", about := "The serialized graph spells words back to front" },
    { name := "checksum", kind := .text
      about := "Expected CRC-16 of the serialized graph, in hex" },
    { name := "db", kind := .path, about := "Attribute database built with `build-index`" },
    { name := "stems", kind := .path, repeats := true
      about := "Stem lists for the stem-based study sets" }]

/-- The command that writes images. -/
def compile : CommandRule :=
  make "compile" "Compile a word list into a serialized graph"
    [outputOption "Output file",
      { name := "reverse", about := "Store words back to front, for suffix searches" }]
    [{ name := "WORDS", kind := .path, about := "Word list" }]

/-- The command that writes attribute stores. -/
def buildIndex : CommandRule :=
  make "build-index" "Build the attribute database for a word list"
    [outputOption "Output database",
      { name := "reference", kind := .text, repeats := true
        about := "`SYMBOL=PATH`: words missing from PATH get SYMBOL" }]
    [{ name := "WORDS", kind := .path
       about := "Word list, with optional definitions after each word" }]

/-- The command that searches. -/
def search : CommandRule :=
  make "search" "Search a lexicon"
    (sourceOptions ++
      [{ name := "long", about := "Show hooks, probability and definitions" },
        { name := "json", about := "Print attribute rows as JSON" },
        { name := "no-color", about := "Disable colored output" },
        { name := "show-wildcards"
          about := "Print letters filled in by wildcards in lower case" }])
    [{ name := "QUERY", about := "Query, e.g. `pattern:C?T -set:hook-words`" }]

/-- The command that tells which words are valid. -/
def judge : CommandRule :=
  make "judge" "Check whether words are acceptable" sourceOptions
    [{ name := "WORDS", many := true }]

def info : CommandRule :=
  make "info" "Show word attributes" sourceOptions [{ name := "WORDS", many := true }]

def settings : CommandRule :=
  make "config" "Print the effective configuration"
    [{ name := "init", about := "Write it to the config file" }] []

/-- The command that shows the help for a command. -/
def helpCommand : CommandRule :=
  { name := "help", about := "Print this message or the help of the given subcommand(s)"
    options := []
    operands := [{ name := "COMMAND", many := true
                   about := "Print help for the subcommand(s)" }] }

/-- All commands, in the order in which they are listed. -/
def all : List CommandRule := [compile, buildIndex, search, judge, info, settings, helpCommand]

def ofName? (name : String) : Option CommandRule := all.find? (·.name == name)

/-- What may stand before the command. -/
def program : CommandRule :=
  { name := "", about := "Lexicon search engine for word-game study"
    options := sharedOptions, operands := [] }

end CommandRule

/-! ## §4 Understanding a command line -/

/-- The source that the options tell. -/
def LexiconSource.ofGiven (given : Given) : LexiconSource where
  lexicon := (given.value? "lexicon").getD ""
  backwards := given.has "reversed"
  checksum := given.value? "checksum"
  store := given.value? "db"
  stems := given.values "stems"

def SearchView.ofGiven (given : Given) : SearchView :=
  if given.has "json" then .rows else if given.has "long" then .details else .words

/-- What is to be done, `none` for the command with the help. -/
def Command.ofGiven (rule : CommandRule) (given : Given) : Option Command :=
  let operand := given.operands.headD ""
  let output := (given.value? "output").getD ""
  let source := LexiconSource.ofGiven given
  if rule = .compile then some (.compile operand output (given.has "reverse"))
  else if rule = .buildIndex then some (.buildIndex operand output (given.values "reference"))
  else if rule = .search then
    some (.search operand source (.ofGiven given) (given.has "no-color")
      (given.has "show-wildcards"))
  else if rule = .judge then some (.judge given.operands source)
  else if rule = .info then some (.info given.operands source)
  else if rule = .settings then some (.settings (given.has "init"))
  else none

/-- What comes of a command line. -/
inductive Reply where
  /-- The command line does not follow the rules. -/
  | refused
  /-- The help is shown. -/
  | help (text : String)
  /-- The command line says what to do. -/
  | understood (invocation : Invocation)
  deriving DecidableEq, Repr

namespace Reply

def programHelp : Reply :=
  .help (CommandRule.program.programHelp CommandRule.programName CommandRule.all)

/-- The help for a command, or for the program. Commands have no commands of their own. -/
def helpFor : List String → Reply
  | [] => programHelp
  | [name] =>
    match CommandRule.ofName? name with
    | some rule => .help (rule.help CommandRule.programName)
    | none => refused
  | _ => refused

/-- What comes of a command with its arguments. Options behind the command count more than
those before it. -/
def ofCommand (before : Given) (rule : CommandRule) (arguments : List String) : Reply :=
  match rule.read arguments with
  | .error .help => .help (rule.help CommandRule.programName)
  | .error .refused => refused
  | .ok given =>
    match Command.ofGiven rule given with
    | none => refused
    | some command =>
      -- The settings given to the command go before those given to the program.
      .understood
        { command, settingsPath := (given.value? "config").or (before.value? "config") }

/-- **What comes of a command line.** -/
def ofArguments (arguments : List String) : Reply :=
  match readFrom .program (.nothing, none) arguments with
  | .error .help => programHelp
  | .error .refused => refused
  | .ok (_, []) => refused
  | .ok (before, name :: arguments) =>
    match CommandRule.ofName? name with
    | none => refused
    | some rule =>
      if rule = .helpCommand then helpFor arguments else ofCommand before rule arguments

end Reply

end WordStudy
