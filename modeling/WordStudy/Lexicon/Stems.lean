import WordStudy.Word.Letters

/-!
# Stems

Lists of stems: letters that make many longer words when one or two letters are added. Stems
are kept by their lengths, in the order in which they came.
-/

namespace WordStudy

/-- The stems of one length. -/
structure StemList where
  stems : List Word
  /-- The alphagrams of the stems, each once. -/
  alphagrams : Std.TreeMap Word Unit

/-- The list with more stems behind it. -/
def StemList.extend (list : StemList) (stems : List Word) : StemList :=
  ⟨list.stems ++ stems, stems.foldl (fun set w => set.insert w.alphagram ()) list.alphagrams⟩

/-- Stems by their lengths. -/
structure StemIndex where
  lists : Std.TreeMap Nat StemList

namespace StemIndex

def empty : StemIndex := ⟨∅⟩

/-- The stems of a list that are kept, in upper case: those as long as the **first stem that
is not empty**. -/
def kept (stems : List Word) : List Word :=
  let stems := (stems.map Word.upper).filter (!·.isEmpty)
  match stems.head? with
  | none => []
  | some first => stems.filter (·.length == first.length)

/-- Add a list of stems; tell how many were kept. -/
def add (index : StemIndex) (stems : List Word) : StemIndex × Nat :=
  match kept stems with
  | [] => (index, 0)
  | first :: rest =>
    let list := (index.lists[first.length]?).getD ⟨[], ∅⟩
    (⟨index.lists.insert first.length (list.extend (first :: rest))⟩, rest.length + 1)

def stems (index : StemIndex) (length : Nat) : List Word :=
  (index.lists[length]?).elim [] (·.stems)

/-- The alphagrams of the stems of one length, in order. -/
def alphagrams (index : StemIndex) (length : Nat) : List Word :=
  (index.lists[length]?).elim [] fun list => list.alphagrams.toList.map (·.1)

def hasLength (index : StemIndex) (length : Nat) : Bool := index.lists.contains length

def contains (index : StemIndex) (length : Nat) (alphagram : Word) : Bool :=
  (index.lists[length]?).any (·.alphagrams.contains alphagram)

def isEmpty (index : StemIndex) : Bool := index.lists.isEmpty

/-- The words that are left when one byte is taken out. -/
def deletions : Word → List Word
  | [] => []
  | b :: w => w :: (deletions w).map (b :: ·)

def oneShort (index : StemIndex) (w : Word) : Bool :=
  (deletions w.alphagram).any (index.contains (w.length - 1))

def twoShort (index : StemIndex) (w : Word) : Bool :=
  (index.alphagrams (w.length - 2)).any (·.fitsIn w)

end StemIndex

end WordStudy
