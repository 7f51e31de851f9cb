import WordStudy.Attributes.Build
import WordStudy.Lexicon.Classifier
import WordStudy.Lexicon.Definitions
import WordStudy.Lexicon.WordList

/-!
# Lexicons

A lexicon is all that is known about one named list of words: the vocabulary, counts of
anagrams, stems, definitions, perhaps an attribute store, and a **cache** of the rows last
asked for. The vocabulary decides which words there are; the store only describes them.
-/

namespace WordStudy

/-- Everything known about one list of words. -/
structure Lexicon where
  name : String
  /-- The letters of which imported words are made. -/
  alphabet : Word
  maxWordLength : Nat
  bag : TileBag
  classifier : Classifier
  vocabulary : Vocabulary
  anagramCounts : AnagramCounts
  stems : StemIndex
  definitions : Definitions
  store : Option AttributeStore
  cache : RowCache

namespace Lexicon

/-- **A lexicon without words.** -/
def create (name : String) (settings : Settings) : Except TableFault Lexicon := do
  let bag ← settings.bag
  pure
    { name
      alphabet := Word.ofText settings.alphabet
      maxWordLength := settings.maxWordLength
      bag
      classifier := Classifier.ofSettings settings bag
      vocabulary := .empty
      anagramCounts := .empty
      stems := .empty
      definitions := .empty
      store := none
      cache := .empty }

/-! ## §1 Importing -/

/-- The entry's word in upper case, if it may be imported: it is spelled in the alphabet and
not too long. -/
def admits (lex : Lexicon) (entry : WordEntry) : Option Word :=
  (entry.word.spelledIn lex.alphabet).filter (·.length ≤ lex.maxWordLength)

/-- Add a word that was admitted. Anagrams are counted for **new words only**, and a definition
is stored also for a word that is not new. -/
def addWord (lex : Lexicon) (w : Word) (definition : Option String) : Lexicon :=
  let (vocabulary, isNew) := lex.vocabulary.add w
  { lex with
    vocabulary
    anagramCounts := if isNew then lex.anagramCounts.add w else lex.anagramCounts
    definitions := definition.elim lex.definitions (lex.definitions.add w) }

/-- **Add the entries of a word list**, with their definitions if asked for; tell how many were
admitted. -/
def importEntries (lex : Lexicon) (entries : List WordEntry) (definitions : Bool) :
    Lexicon × Nat :=
  -- The words are added one by one, and the graph is merged once at the end.
  let (lex, count) := entries.foldl
    (fun (lex, count) entry =>
      match lex.admits entry with
      | none => (lex, count)
      | some w => (lex.addWord w (entry.definition.filter fun _ => definitions), count + 1))
    (lex, 0)
  ({ lex with vocabulary := lex.vocabulary.merge }, count)

/-- Add words without definitions; tell how many were admitted. -/
def importWords (lex : Lexicon) (words : List Word) : Lexicon × Nat :=
  lex.importEntries (words.map fun w => ⟨w, none⟩) false

/-- **Replace the vocabulary by the one of an image.** The anagrams are counted anew and the
cache is cleared. -/
def importImage (lex : Lexicon) (bytes : List UInt8) (backwards : Bool)
    (expected : Option (BitVec 16)) : Except ImageFault Lexicon := do
  let vocabulary ← Vocabulary.ofImage bytes backwards expected
  pure
    { lex with
      vocabulary
      anagramCounts := vocabulary.forward.foldWords AnagramCounts.add .empty
      cache := .empty }

/-- Add a list of stems; tell how many were kept. -/
def importStems (lex : Lexicon) (stems : List Word) : Lexicon × Nat :=
  let (index, kept) := lex.stems.add stems
  ({ lex with stems := index }, kept)

/-! ## §2 The attribute store -/

def isIndexed (lex : Lexicon) : Bool := lex.store.isSome

/-- Use a store, with no rows in the cache. -/
def attach (lex : Lexicon) (store : AttributeStore) : Lexicon :=
  { lex with store := some store, cache := .empty }

/-- Use no store, with no rows in the cache. -/
def detach (lex : Lexicon) : Lexicon := { lex with store := none, cache := .empty }

/-- What the rows of the lexicon are built from. -/
def rowSources (lex : Lexicon) (definitions : Bool) (references : List (String × Vocabulary)) :
    RowSources where
  vocabulary := lex.vocabulary
  bag := lex.bag
  definition w := if definitions then (lex.definitions.text? w).getD "" else ""
  references

/-- Clear the cache and fill it with the rows for the words. A store that cannot answer leaves
it empty. -/
def refreshCache (lex : Lexicon) (words : List Word) : Lexicon :=
  let filled := lex.store.elim RowCache.empty fun store =>
    match RowCache.empty.populate store words with
    | .ok (cache, _) => cache
    | .error _ => .empty
  { lex with cache := filled }

/-- The row that the store has for a word in upper case. -/
def storedRow (lex : Lexicon) (w : Word) : Option Row :=
  lex.store.bind fun store =>
    match store.row? w with
    | .ok row => row
    | .error _ => none

/-- The row for a word, `none` if there is no store or no row. A row that the store gives is
kept in the cache, where it is **found first** from then on. -/
def row (lex : Lexicon) (w : Word) : Option Row × Lexicon :=
  let w := w.upper
  if w.isEmpty then (none, lex)
  else
    -- A row that was found before is not asked for again.
    match lex.cache.get? w with
    | some row => (some row, lex)
    | none =>
      match lex.storedRow w with
      | some row => (some row, { lex with cache := lex.cache.insert row })
      | none => (none, lex)

/-! ## §3 Looking words up -/

def accepts (lex : Lexicon) (w : Word) : Bool := lex.vocabulary.contains w

def wordCount (lex : Lexicon) : Nat := lex.vocabulary.wordCount

/-- The word belongs to the set. A word that is not spelled in the alphabet belongs to none. -/
def member (lex : Lexicon) (set : StudySet) (w : Word) : Bool :=
  (w.spelledIn lex.alphabet).any (lex.classifier.member lex.vocabulary lex.stems set)

/-- The sets that the word belongs to, in the order of all sets. -/
def sets (lex : Lexicon) (w : Word) : List StudySet := StudySet.all.filter (lex.member · w)

/-- What a row tells about a word, or else what is found without one. -/
def lookUp {α : Type} (lex : Lexicon) (w : Word) (stored : Row → α) (found : α) : α × Lexicon :=
  let (row?, lex) := lex.row w
  (row?.elim found stored, lex)

def anagrams (lex : Lexicon) (w : Word) : Nat × Lexicon :=
  lex.lookUp w (·.anagrams) (lex.anagramCounts.count w)

def frontHooks (lex : Lexicon) (w : Word) : String × Lexicon :=
  lex.lookUp w (·.frontHooks) (lex.vocabulary.frontHooks w)

/-- The letters that can be put behind a word. -/
def backHooks (lex : Lexicon) (w : Word) : String × Lexicon :=
  lex.lookUp w (·.backHooks) (lex.vocabulary.backHooks w)

/-- The definition of a word, its links resolved if asked for. The text of a row counts even
if it is empty. -/
def definition (lex : Lexicon) (w : Word) (resolve : Bool) : Option String × Lexicon :=
  let shown (text : String) : String := if resolve then lex.definitions.resolveLinks text else text
  lex.lookUp w (fun row => if row.definition.isEmpty then none else some (shown row.definition))
    (lex.definitions.render w resolve)

def summary (lex : Lexicon) : String :=
  "Lexicon \x7b name: \"" ++ lex.name ++ "\", words: " ++ toString lex.wordCount ++ ", indexed: " ++
    toString lex.isIndexed ++ " \x7d"

end Lexicon

end WordStudy
