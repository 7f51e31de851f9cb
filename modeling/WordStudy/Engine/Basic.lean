import WordStudy.Engine.Files
import WordStudy.Lexicon.Search

/-!
# The engine

Named lexicons under one set of settings. A lexicon comes into being when something is
imported under its name, and **before** what is imported is known to be good. Questions about
a lexicon that is not loaded have an empty answer.
-/

namespace WordStudy

/-- Lexicons by their names. -/
structure Engine where
  settings : Settings
  lexicons : Std.TreeMap String Lexicon

/-- What comes of reading a file. -/
abbrev FileBytes : Type := Except FileFault (List UInt8)

namespace Engine

/-! ## §1 Lexicons -/

def create (settings : Settings) : Engine := ⟨settings, ∅⟩

def lexicon? (e : Engine) (name : String) : Option Lexicon := e.lexicons[name]?

def isLoaded (e : Engine) (name : String) : Bool := e.lexicons.contains name

/-- The names of all lexicons, in order. -/
def names (e : Engine) : List String := e.lexicons.toList.map (·.1)

/-- The lexicon with a name, a new one if there is none. -/
def open? (e : Engine) (name : String) : Except EngineFault Lexicon :=
  match e.lexicon? name with
  | some lex => .ok lex
  | none =>
    match Lexicon.create name e.settings with
    | .ok lex => .ok lex
    | .error cause => .error (.table cause)

def put (e : Engine) (name : String) (lex : Lexicon) : Engine :=
  { e with lexicons := e.lexicons.insert name lex }

/-- Drop a lexicon; tell whether it was loaded. -/
def unload (e : Engine) (name : String) : Engine × Bool :=
  ({ e with lexicons := e.lexicons.erase name }, e.isLoaded name)

/-! ## §2 Importing -/

/-- What an operation gives, and the engine after it; a failed operation leaves an engine
behind as well. -/
abbrev Outcome (α : Type) : Type := Except EngineFault α × Engine

/-- Change the lexicon with a name, which is created if need be. -/
def edit {α : Type} (e : Engine) (name : String) (change : Lexicon → Except EngineFault (Lexicon × α)) :
    Outcome α :=
  match e.open? name with
  | .error fault => (.error fault, e)
  | .ok lex =>
    match change lex with
    | .error fault => (.error fault, e.put name lex)
    | .ok (changed, result) => (.ok result, e.put name changed)

/-- Import words without definitions; tell how many were admitted. -/
def importWords (e : Engine) (name : String) (words : List Word) : Outcome Nat :=
  e.edit name fun lex => .ok (lex.importWords words)

/-- Import a word list from a file, with its definitions if asked for; tell how many lines were
admitted. A file that cannot be read creates no lexicon. -/
def importText (e : Engine) (name path : String) (bytes : FileBytes) (definitions : Bool) :
    Outcome Nat :=
  match bytes with
  | .error cause => (.error (.file path cause), e)
  | .ok bytes =>
    e.edit name fun lex => .ok (lex.importEntries (WordList.entries bytes) definitions)

/-- Replace a vocabulary by that of an image. A bad image leaves the old one in place. -/
def importImage (e : Engine) (name : String) (bytes : List UInt8) (backwards : Bool)
    (expected : Option (BitVec 16)) : Outcome Unit :=
  e.edit name fun lex =>
    match lex.importImage bytes backwards expected with
    | .ok lex => .ok (lex, ())
    | .error cause => .error (.image cause)

/-- Replace a vocabulary by that of an image in a file. -/
def importImageFile (e : Engine) (name path : String) (bytes : FileBytes) (backwards : Bool)
    (expected : Option (BitVec 16)) : Outcome Unit :=
  match bytes with
  | .error cause => (.error (.file path cause), e)
  | .ok bytes => e.importImage name bytes backwards expected

/-- Add the stems of a file to a lexicon; tell how many were kept. There is nothing to do for a
lexicon that is not loaded, even if the file cannot be read. -/
def importStems (e : Engine) (name path : String) (bytes : FileBytes) : Outcome Nat :=
  -- Stems for a lexicon that is not there are dropped.
  match e.lexicon? name with
  | none => (.ok 0, e)
  | some lex =>
    match bytes with
    | .error cause => (.error (.file path cause), e)
    | .ok bytes =>
      let (lex, kept) := lex.importStems (WordList.stems bytes)
      (.ok kept, e.put name lex)

/-- The image of a vocabulary. -/
def image (e : Engine) (name : String) : Except EngineFault (List UInt8) :=
  match e.lexicon? name with
  | none => .error (.notLoaded name)
  | some lex =>
    match lex.vocabulary.image with
    | .ok bytes => .ok bytes
    | .error cause => .error (.image cause)

/-! ## §3 Attribute stores -/

/-- Let a lexicon use an attribute store. -/
def connect (e : Engine) (name : String) (store : Except StoreFault AttributeStore) :
    Outcome Unit :=
  match e.lexicon? name with
  | none => (.error (.notLoaded name), e)
  | some lex =>
    match store with
    | .error cause => (.error (.store cause), e)
    | .ok store => (.ok (), e.put name (lex.attach store))

def disconnect (e : Engine) (name : String) : Engine :=
  match e.lexicon? name with
  | none => e
  | some lex => e.put name lex.detach

def isConnected (e : Engine) (name : String) : Bool := (e.lexicon? name).any (·.isIndexed)

/-- Files have changed: lexicons that use a store in one of them see its new rows, while rows in
their caches stay. -/
def filesChanged (e : Engine) (files : Files) : Engine :=
  { e with lexicons := e.lexicons.map fun _ lex => { lex with store := lex.store.map files.follow } }

/-! ## §4 Questions -/

/-- Ask a lexicon, `absent` being the answer if it is not loaded. -/
def ask {α : Type} (e : Engine) (name : String) (absent : α) (question : Lexicon → α × Lexicon) :
    α × Engine :=
  match e.lexicon? name with
  | none => (absent, e)
  | some lex =>
    let (answer, lex) := question lex
    (answer, e.put name lex)

/-- Ask a lexicon without any effect on its cache. -/
def view {α : Type} (e : Engine) (name : String) (absent : α) (question : Lexicon → α) : α :=
  (e.lexicon? name).elim absent question

def search (e : Engine) (name : String) (spec : SearchSpec) (capitals : Bool) :
    List Word × Engine :=
  e.ask name [] fun lex => lex.search spec capitals

def accepts (e : Engine) (name : String) (w : Word) : Bool := e.view name false (·.accepts w)

def wordCount (e : Engine) (name : String) : Nat := e.view name 0 (·.wordCount)

def row (e : Engine) (name : String) (w : Word) : Option Row × Engine :=
  e.ask name none (·.row w)

/-- The definition of a word, its links resolved if asked for. -/
def definition (e : Engine) (name : String) (w : Word) (resolve : Bool) :
    Option String × Engine :=
  e.ask name none (·.definition w resolve)

def frontHooks (e : Engine) (name : String) (w : Word) : String × Engine :=
  e.ask name "" (·.frontHooks w)

/-- The letters that can be put behind a word. -/
def backHooks (e : Engine) (name : String) (w : Word) : String × Engine :=
  e.ask name "" (·.backHooks w)

def anagrams (e : Engine) (name : String) (w : Word) : Nat × Engine :=
  e.ask name 0 (·.anagrams w)

def member (e : Engine) (name : String) (set : StudySet) (w : Word) : Bool :=
  e.view name false (·.member set w)

/-- The ranks of a word, known only from its row. -/
def ranks (e : Engine) (name : String) (w : Word) : Option Ranks × Engine :=
  let (row, e) := e.row name w
  (row.map fun row => ⟨row.rank, row.firstTied, row.lastTied⟩, e)

/-- What the row of a word tells, or else what is found without one. -/
def fromRow {α : Type} (e : Engine) (name : String) (w : Word) (stored : Row → α) (found : α) :
    α × Engine :=
  let (row, e) := e.row name w
  (row.elim found stored, e)

def vowels (e : Engine) (name : String) (w : Word) : Nat × Engine :=
  e.fromRow name w (·.vowels) w.vowelCount

def distinct (e : Engine) (name : String) (w : Word) : Nat × Engine :=
  e.fromRow name w (·.distinct) w.distinctCount

/-- The sum of the letter values, zero if the lexicon is not loaded. -/
def points (e : Engine) (name : String) (w : Word) : Nat × Engine :=
  e.fromRow name w (·.points) (e.view name 0 fun lex => lex.bag.pointValue w)

/-- The word is a word without its first letter. -/
def isFrontHook (e : Engine) (name : String) (w : Word) : Bool × Engine :=
  e.fromRow name w (·.isFrontHook) (e.member name .frontHooks w)

/-- The word is a word without its last letter. -/
def isBackHook (e : Engine) (name : String) (w : Word) : Bool × Engine :=
  e.fromRow name w (·.isBackHook) (e.member name .backHooks w)

/-- The symbols of the reference lists that lack the word, known only from its row. -/
def symbols (e : Engine) (name : String) (w : Word) : String × Engine :=
  e.fromRow name w (·.symbols) ""

end Engine

end WordStudy
