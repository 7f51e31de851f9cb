import WordStudy.CommandLine.Command
import WordStudy.Engine.Basic
import WordStudy.Engine.Files
import WordStudy.Report.Listing
import WordStudy.Report.Rows
import WordStudy.Settings.Load

/-!
# Running a command

A run starts from some files and a command line, and ends with other files, an exit code and
what was written. All lexicons of a run have one name, and there is one of them at most.
-/

namespace WordStudy

open Text

/-! ## §1 What a run has and what it gives -/

/-- Where the program runs. -/
structure Surroundings where
  /-- The folder under which the programs of a user keep their data, if it is known. -/
  dataFolder : Option String
  /-- The terminal shows colours. -/
  coloured : Bool
  deriving DecidableEq, Repr

namespace Surroundings

/-- The folder in which this program keeps its data. -/
def folder? (s : Surroundings) : Option String :=
  s.dataFolder.map fun folder =>
    if folder.isEmpty then CommandRule.programName else folder ++ "/" ++ CommandRule.programName

/-- The usual path of the settings. -/
def settingsPath? (s : Surroundings) : Option String := s.folder?.map (· ++ "/config.json")

end Surroundings

/-- Why a run fails. -/
inductive RunFault where
  | engine (cause : EngineFault)
  | settings (cause : SettingsFault)
  /-- The checksum on the command line is not a number. -/
  | badChecksum (cause : NumeralFault)
  /-- The reference list on the command line has no symbol. -/
  | badReference (reference : String)
  | cannotWrite (path : String) (cause : FileFault)
  | cannotReplace (path : String) (cause : FileFault)
  | cannotWriteSettings (path : String) (cause : FileFault)
  | noDataFolder
  | cannotMakeFolder (cause : FileFault)
  deriving DecidableEq, Repr

namespace RunFault

/-- The fault in words, without its cause. -/
def message : RunFault → String
  | engine cause => cause.message
  | settings cause => cause.message
  | badChecksum _ => "checksum must be hexadecimal"
  | badReference reference => s!"reference must be SYMBOL=PATH: '{reference}'"
  | cannotWrite path _ => s!"Failed to write {path}"
  | cannotReplace path _ => s!"Failed to replace {path}"
  | cannotWriteSettings path _ => s!"Failed to write config file {path}"
  | noDataFolder => "Could not determine app data directory"
  | cannotMakeFolder cause => cause.message

/-- The cause in words. -/
def cause? : RunFault → Option String
  | engine (.file _ cause) => some cause.message
  | engine _ => none
  | settings cause => cause.cause?
  | badChecksum cause => some cause.message
  | badReference _ => none
  | cannotWrite _ cause => some cause.message
  | cannotReplace _ cause => some cause.message
  | cannotWriteSettings _ cause => some cause.message
  | noDataFolder => none
  | cannotMakeFolder _ => none

def report (fault : RunFault) : String :=
  s!"Error: {fault.message}\n" ++
    fault.cause?.elim "" fun cause => s!"\nCaused by:\n    {cause}\n"

end RunFault

/-- What a run has done so far. -/
structure RunState where
  files : Files
  output : String := ""
  errors : String := ""

/-- A step of a run. What was done before a fault is not undone. -/
abbrev Run : Type → Type := ExceptT RunFault (StateM RunState)

namespace Run

def print (text : String) : Run Unit :=
  modify fun state => { state with output := state.output ++ text }

/-- Tell the user something that is not the result. -/
def tell (text : String) : Run Unit :=
  modify fun state => { state with errors := state.errors ++ text }

def files : Run Files := return (← get).files

def setFiles (files : Files) : Run Unit := modify fun state => { state with files }

/-- A result, or a fault of which it is told what it means for the run. -/
def orFault {ε α : Type} (wrap : ε → RunFault) : Except ε α → Run α
  | .ok a => pure a
  | .error fault => throw (wrap fault)

/-! ## §2 Files -/

def read (path : String) : Run (List UInt8) := do
  orFault (fun cause => .engine (.file path cause)) ((← files).read path)

def readEntries (path : String) : Run (List WordEntry) := return WordList.entries (← read path)

def write (fault : String → FileFault → RunFault) (path : String) (content : List UInt8) :
    Run Unit := do
  setFiles (← orFault (fault path) ((← files).write path content))

/-- The usual path of the settings, in a folder that is made if need be. -/
def usualSettingsPath (place : Surroundings) : Run String := do
  match place.folder?, place.settingsPath? with
  | some folder, some path =>
    setFiles (← orFault .cannotMakeFolder ((← files).makeFolder folder))
    pure path
  | _, _ => throw .noDataFolder

def settingsPath (place : Surroundings) (given : Option String) : Run String :=
  given.elim (usualSettingsPath place) pure

/-! ## §3 Lexicons -/

def lexiconName : String := "default"

def newLexicon (settings : Settings) : Run Lexicon :=
  orFault (fun cause => .engine (.table cause)) (Lexicon.create lexiconName settings)

/-- A numeral in base 16 without any `0x` at its start. -/
def withoutMark : List Char → List Char
  | '0' :: 'x' :: rest => withoutMark rest
  | text => text

def checksumOf (text : String) : Run (BitVec 16) := do
  let n ← orFault .badChecksum (readNumeral 16 0xFFFF (withoutMark text.toList))
  pure (BitVec.ofNat 16 n)

def after {α : Type} : Engine.Outcome α → Run Engine
  | (.ok _, engine) => pure engine
  | (.error fault, _) => throw (.engine fault)

def addStems (engine : Engine) (path : String) : Run Engine := do
  after (engine.importStems lexiconName path ((← files).read path))

/-- **An engine with the lexicon of the source.** A name that ends in `.dawg` is that of an
image. -/
def load (settings : Settings) (source : LexiconSource) : Run Engine := do
  let path := source.lexicon
  let engine := Engine.create settings
  let engine ←
    if Files.extension? path = some "dawg" then do
      let expected ← source.checksum.mapM checksumOf
      after (engine.importImageFile lexiconName path ((← files).read path) source.backwards expected)
    -- Definitions are kept for a word list only; an image holds none.
    else after (engine.importText lexiconName path ((← files).read path) true)
  let engine ← source.stems.foldlM addStems engine
  match source.store with
  | none => pure engine
  | some path => after (engine.connect lexiconName ((← files).openStore path))

/-- The details of words. -/
def details (engine : Engine) : List Word → List WordDetails × Engine
  | [] => ([], engine)
  | w :: rest =>
    let (front, engine) := engine.frontHooks lexiconName w
    let (back, engine) := engine.backHooks lexiconName w
    let (ranks, engine) := engine.ranks lexiconName w
    let (definition, engine) := engine.definition lexiconName w true
    let (others, engine) := details engine rest
    (⟨w.text, front, back, ranks.map (·.rank), definition⟩ :: others, engine)

/-- The rows of words. -/
def rows (engine : Engine) : List Word → List (Option Row) × Engine
  | [] => ([], engine)
  | w :: rest =>
    let (row, engine) := engine.row lexiconName w
    let (others, engine) := rows engine rest
    (row :: others, engine)

/-! ## §4 Commands -/

/-- Write the image of a word list. -/
def compile (settings : Settings) (words output : String) (backwards : Bool) : Run Unit := do
  let lex ← newLexicon settings
  let (lex, _) := lex.importEntries (← readEntries words) false
  -- The words are turned around and put into a vocabulary of their own.
  let vocabulary :=
    if backwards then (Vocabulary.empty.importWords (lex.vocabulary.words.map List.reverse)).1
    else lex.vocabulary
  let image ← orFault (fun cause => .engine (.image cause)) vocabulary.image
  write .cannotWrite output image
  print s!"checksum: {hex16 (checksum image)}\n"

/-- The symbol and the words of a reference list. -/
def readReference (reference : String) : Run (String × Vocabulary) := do
  match splitReference reference with
  | none => throw (.badReference reference)
  | some (symbol, path) =>
    let entries ← readEntries path
    pure (symbol, (Vocabulary.empty.importWords (entries.map (·.word))).1)

/-- Write the attribute store of a word list, in place of any file that is there. -/
def buildIndex (settings : Settings) (words output : String) (references : List String) :
    Run Unit := do
  let lex ← newLexicon settings
  let (lex, _) := lex.importEntries (← readEntries words) true
  let references ← references.mapM readReference
  -- An old store is removed before the new one is written.
  if (← files).exists? output then
    setFiles (← orFault (.cannotReplace output) ((← files).remove output))
  let (outcome, files) := (← files).storeRows output (lex.rowSources true references).rows
  setFiles files
  orFault (fun cause => .engine (.store cause)) outcome

/-- Show the words that a query finds. -/
def search (coloured : Bool) (settings : Settings) (query : String) (source : LexiconSource)
    (view : SearchView) (plain showWildcards : Bool) : Run Unit := do
  let engine ← load settings source
  let spec ← orFault (fun cause => .engine (.query cause)) (Query.read query)
  let (words, engine) := engine.search lexiconName spec (!showWildcards)
  let coloured := coloured && !plain
  match view with
  | .words => print (Span.renderAll coloured (Listing.ofWords (words.map Word.text)))
  | .details => print (Span.renderAll coloured (Listing.ofDetails (details engine words).1))
  | .rows => print (Row.printAll (rows engine words).1 ++ "\n")

/-- Tell which words are valid. -/
def judge (coloured : Bool) (settings : Settings) (words : List String) (source : LexiconSource) :
    Run Unit := do
  let engine ← load settings source
  let words := words.map Word.ofText
  print (Span.renderAll coloured (Listing.ofJudgement (words.map fun w =>
    (w.upper.text, engine.accepts lexiconName w))))

/-- Show the details of the words that are valid, and then the other words. -/
def info (coloured : Bool) (settings : Settings) (words : List String) (source : LexiconSource) :
    Run Unit := do
  let engine ← load settings source
  let (known, unknown) :=
    (words.map fun w => (Word.ofText w).upper).partition (engine.accepts lexiconName)
  print (Span.renderAll coloured
    (Listing.ofInfo (details engine known).1 (unknown.map Word.text)))

/-- Show the settings, and write them to their file if asked for. -/
def showSettings (place : Surroundings) (settings : Settings) (given : Option String)
    (writeThem : Bool) : Run Unit := do
  print (settings.text ++ "\n")
  if writeThem then
    let path ← settingsPath place given
    write .cannotWriteSettings path (Utf8.bytesOf settings.text)
    tell s!"Wrote {path}\n"

/-- **Do what the command line says.** The settings are loaded before anything else. -/
def perform (place : Surroundings) (invocation : Invocation) : Run Unit := do
  let given := invocation.settingsPath
  let path ← settingsPath place given
  let settings ← orFault .settings (Settings.load (← files) path)
  match invocation.command with
  | .compile words output backwards => compile settings words output backwards
  | .buildIndex words output references => buildIndex settings words output references
  | .search query source view plain showWildcards =>
    search place.coloured settings query source view plain showWildcards
  | .judge words source => judge place.coloured settings words source
  | .info words source => info place.coloured settings words source
  | .settings write => showSettings place settings given write

end Run

/-! ## §5 Runs -/

/-- What is written for a command line that does not follow the rules. -/
def Reply.refusal : String :=
  CommandRule.program.usage CommandRule.programName ++ " <COMMAND>\n"

/-- The paths of all files that a command line names. -/
def Reply.paths (place : Surroundings) : Reply → List String
  | understood invocation =>
    (invocation.settingsPath.or place.settingsPath?).toList ++ invocation.command.paths
  | refused | help _ => []

/-- What a run gives. -/
structure RunResult where
  code : Nat
  output : String
  errors : String
  files : Files

/-- **Run the program.** The exit code is 2 for a command line that does not follow the rules,
and 1 for any other fault. -/
def runProgram (place : Surroundings) (files : Files) (arguments : List String) : RunResult :=
  match Reply.ofArguments arguments with
  | .refused => ⟨2, "", Reply.refusal, files⟩
  | .help text => ⟨0, text, "", files⟩
  | .understood invocation =>
    match (Run.perform place invocation).run.run { files } with
    | (.ok (), state) => ⟨0, state.output, state.errors, state.files⟩
    | (.error fault, state) => ⟨1, state.output, state.errors ++ fault.report, state.files⟩

end WordStudy
