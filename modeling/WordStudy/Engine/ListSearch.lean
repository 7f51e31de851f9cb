import WordStudy.Engine.Basic

/-!
# Searching by word lists

A search that starts from the lists of a specification instead of the vocabulary: the words of
the lists are intersected, or united where one condition is to hold, and then narrowed by
ranges of numbers. Negation of a list and all other conditions do not matter.
-/

namespace WordStudy

open Text

/-- The ranges that narrow the words of the lists. -/
structure ListBounds where
  anagrams : Bounds := .atLeast 0
  vowels : Bounds := .atLeast 0
  distinct : Bounds := .atLeast 0
  points : Bounds := .atLeast 0
  deriving DecidableEq, Repr

namespace ListBounds

/-- The ranges narrowed by a condition, `none` if nothing is left of one. -/
def narrow (b : ListBounds) : Condition → Option ListBounds
  | .anagrams r => (b.anagrams.meet r).map fun anagrams => { b with anagrams }
  | .vowels r => (b.vowels.meet r).map fun vowels => { b with vowels }
  | .distinct r => (b.distinct.meet r).map fun distinct => { b with distinct }
  | .points r => (b.points.meet r).map fun points => { b with points }
  | _ => some b

/-- The ranges that the conditions leave, `none` if nothing is left of one. -/
def ofConditions (conditions : List Condition) : Option ListBounds :=
  conditions.foldlM narrow {}

end ListBounds

namespace Lexicon

/-- The words of a list that are in the lexicon, in upper case. -/
def listed (lex : Lexicon) (words : List String) : List Word :=
  (words.map fun w => (Word.ofText w).upper).filter lex.accepts

/-- The words of all lists: those on every list, or those on some list. -/
def joinLists (conjunction : Bool) : List (List Word) → List Word
  | [] => []
  | first :: rest =>
    if conjunction then first.filter fun w => rest.all (·.contains w) else first ++ rest.flatten

/-- The words of the lists among the conditions, in order and each once. -/
def listWords (lex : Lexicon) (spec : SearchSpec) : List Word :=
  let lists := spec.conditions.filterMap fun
    | .inList words _ => some (lex.listed words)
    | _ => none
  dropRepeats id (Word.sort (joinLists spec.conjunction lists))

/-- The words that the ranges leave. Each word's row is asked for. -/
def narrowWords (lex : Lexicon) (bounds : ListBounds) : List Word → List Word × Lexicon
  | [] => ([], lex)
  | w :: rest =>
    -- The number of anagrams may be read from the store, so each word is asked in turn.
    let (anagrams, lex) := lex.anagrams w
    let (kept, lex) := lex.narrowWords bounds rest
    if bounds.anagrams.contains anagrams && bounds.vowels.contains w.vowelCount &&
        bounds.distinct.contains w.distinctCount &&
        bounds.points.contains (lex.bag.pointValue w) then
      (w :: kept, lex)
    else (kept, lex)

/-- **The words of the lists that the ranges leave.** -/
def searchLists (lex : Lexicon) (spec : SearchSpec) : List Word × Lexicon :=
  match ListBounds.ofConditions spec.conditions with
  | none => ([], lex)
  | some bounds => lex.narrowWords bounds (lex.listWords spec)

end Lexicon

/-- The words of the lists that the ranges leave. -/
def Engine.searchLists (e : Engine) (name : String) (spec : SearchSpec) : List Word × Engine :=
  e.ask name [] (·.searchLists spec)

end WordStudy
