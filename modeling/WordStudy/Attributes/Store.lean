import WordStudy.Attributes.Address
import WordStudy.Attributes.Limits

/-!
# The attribute store

Rows by their words. A store may be kept in a file; when the file no longer holds a table,
the store is still there but **cannot answer**.
-/

namespace WordStudy

/-- The words in upper case, as a set. -/
def upperSet (words : List Word) : Std.TreeMap Word Unit :=
  words.foldl (fun set w => set.insert w.upper ()) ∅

/-- Rows by their words, in the order of the bytes. -/
structure AttributeTable where
  rows : Std.TreeMap Word Row
  /-- **Each row lies under its own word.** -/
  keyed : ∀ (w : Word) (row : Row), rows[w]? = some row → row.word = w
  /-- **The numbers of all rows fit their columns.** -/
  fits : ∀ (w : Word) (row : Row), rows[w]? = some row → row.FitsColumns

namespace AttributeTable

def empty : AttributeTable where
  rows := ∅
  keyed := by simp
  fits := by simp

/-- Put a row in, as its columns hold it; it replaces an earlier one for its word. -/
def put (t : AttributeTable) (row : Row) : AttributeTable where
  rows := t.rows.insert row.word row.cut
  keyed := by
    -- Only the row that was put stands under its own word.
    intro w row' h
    rw [Std.TreeMap.getElem?_insert] at h
    split at h
    · next hsame =>
      cases h
      exact Std.LawfulEqCmp.eq_of_compare hsame
    · exact t.keyed w row' h
  fits := by
    intro w row' h
    rw [Std.TreeMap.getElem?_insert] at h
    split at h
    · cases h
      exact row.fitsColumns_cut
    · exact t.fits w row' h

/-- Put rows in, one after the other. -/
def insert (t : AttributeTable) (rows : List Row) : AttributeTable := rows.foldl put t

def size (t : AttributeTable) : Nat := t.rows.size

/-- All rows in the order of their words. -/
def toList (t : AttributeTable) : List Row := t.rows.toList.map (·.2)

/-- The row for a word, spelled as it is stored. -/
def row? (t : AttributeTable) (w : Word) : Option Row := t.rows[w]?

/-- The rows of candidates, or all rows if there are none. A row is one of the candidates if its
word is one of them in upper case. -/
def among (t : AttributeTable) : Option (List Word) → List Row
  | none => t.toList
  | some words =>
    let wanted := upperSet words
    t.toList.filter fun row => wanted.contains row.word

/-- The words of the rows that satisfy every predicate. -/
def find (t : AttributeTable) (predicates : List Predicate) (candidates : Option (List Word)) :
    List Word :=
  ((t.among candidates).filter fun row => predicates.all (·.holds row)).map (·.word)

/-- The rows for the words, looked up in upper case, each once; words without a row are left
out. -/
def rowsFor (t : AttributeTable) (words : List Word) : List Row :=
  (upperSet words).toList.filterMap fun entry => t.row? entry.1

end AttributeTable

/-- Why a store cannot be opened. -/
inductive OpenFault where
  | badAddress (cause : AddressFault)
  /-- There is no such file, and none can be made. -/
  | noFile (address : String)
  /-- What lies there is no file. -/
  | noContent
  deriving DecidableEq, Repr

def OpenFault.message : OpenFault → String
  | badAddress cause => cause.message
  | noFile address => s!"unable to open database file: {address}"
  | noContent => "disk I/O error"

/-- Why there is no attribute store, or it has no answer. -/
inductive StoreFault where
  /-- The store cannot be opened for reading. -/
  | unopened (address : String) (cause : OpenFault)
  /-- The store cannot be opened for writing. -/
  | unmade (cause : OpenFault)
  /-- There is no table of words. -/
  | noTable (address : String)
  /-- The file is something else. -/
  | notStore
  /-- The name of the file is too long for a second one beside it. -/
  | longName
  /-- The store was opened for reading only. -/
  | readOnly
  /-- The table of words is gone. -/
  | tableGone
  | tooDeep
  | longText
  | longMask
  deriving DecidableEq, Repr

/-- The fault in words. -/
def StoreFault.message : StoreFault → String
  | unopened address cause => s!"{address}: {cause.message}"
  | unmade cause => cause.message
  | noTable address => s!"{address}: no words table"
  | notStore => "file is not a database"
  | longName => "unable to open database file"
  | readOnly => "attempt to write a readonly database"
  | tableGone => "no such table: words"
  | tooDeep => s!"Expression tree is too large (maximum depth {QueryShape.maxDepth})"
  | longText => "string or blob too big"
  | longMask => "LIKE or GLOB pattern too complex"

/-- A store of attributes. -/
structure AttributeStore where
  /-- The key of the file in which the store is kept, `none` if it is kept in memory. -/
  origin : Option String
  /-- The rows, `none` if they cannot be read any more. -/
  table? : Option AttributeTable

namespace AttributeStore

def inMemory (t : AttributeTable) : AttributeStore := ⟨none, some t⟩

/-- The rows, or the fault that they are gone. -/
def table (s : AttributeStore) : Except StoreFault AttributeTable :=
  match s.table? with
  | some t => .ok t
  | none => .error .tableGone

/-- The words of the rows that satisfy every predicate. -/
def find (s : AttributeStore) (predicates : List Predicate) (candidates : Option (List Word)) :
    Except StoreFault (List Word) := do
  let t ← s.table
  if !fitsDepth predicates candidates.isSome then throw .tooDeep
  else if !fitsTexts predicates candidates then throw .longText
  else if meetsLongMask predicates (t.among candidates) then throw .longMask
  else pure (t.find predicates candidates)

def rowsFor (s : AttributeStore) (words : List Word) : Except StoreFault (List Row) :=
  if words.isEmpty then .ok [] else return (← s.table).rowsFor words

def row? (s : AttributeStore) (w : Word) : Except StoreFault (Option Row) :=
  return (← s.rowsFor [w]).head?

end AttributeStore

/-! ## The cache of rows -/

/-- Rows kept at hand. -/
structure RowCache where
  entries : Std.TreeMap Word Row

namespace RowCache

def empty : RowCache := ⟨∅⟩

/-- Keep a row under its word in upper case. -/
def insert (c : RowCache) (row : Row) : RowCache := ⟨c.entries.insert row.word.upper row⟩

/-- Keep the rows that the store has for the words, each under its word; tell how many there
were. -/
def populate (c : RowCache) (s : AttributeStore) (words : List Word) :
    Except StoreFault (RowCache × Nat) := do
  let rows ← s.rowsFor words
  pure (⟨rows.foldl (fun entries row => entries.insert row.word row) c.entries⟩, rows.length)

/-- The row kept for a word that is given in upper case. -/
def get? (c : RowCache) (w : Word) : Option Row := c.entries[w]?

def size (c : RowCache) : Nat := c.entries.size

end RowCache

end WordStudy
