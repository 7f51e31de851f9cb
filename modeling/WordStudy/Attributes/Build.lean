import WordStudy.Attributes.Store
import WordStudy.Graph.Vocabulary
import WordStudy.Search.Window
import WordStudy.Word.AnagramCounts

/-!
# Building attribute rows

The rows of all words of a vocabulary. Words are **ranked within their length** by the number
of draws; words that are tied share the first and the last rank of their run.
-/

namespace WordStudy

/-- What rows are built from. -/
structure RowSources where
  vocabulary : Vocabulary
  bag : TileBag
  /-- The definition of a word, empty if it has none. -/
  definition : Word → String := fun _ => ""
  /-- Lists of words, each with the symbol of the words that it lacks. -/
  references : List (String × Vocabulary) := []

/-- The ranks of a word. -/
structure Ranks where
  rank : Nat
  firstTied : Nat
  lastTied : Nat
  deriving DecidableEq, Repr

namespace RowSources

/-- The ranks along runs of tied words, when `before` words are ranked before them. -/
def runRanks : Nat → List (List RankKey) → List (Word × Ranks)
  | _, [] => []
  | before, run :: runs =>
    run.mapIdx (fun i key => (key.word, ⟨before + i + 1, before + 1, before + run.length⟩)) ++
      runRanks (before + run.length) runs

/-- The ranks of words that are all of one length. -/
def ranksOf (bag : TileBag) (words : List Word) : List (Word × Ranks) :=
  let keys := (words.map (RankKey.ofWord bag false)).mergeSort RankKey.le
  runRanks 0 (keys.splitBy RankKey.ties)

def byLength (words : List Word) : Std.TreeMap Nat (List Word) :=
  words.foldr (fun w groups => groups.insert w.length (w :: (groups[w.length]?).getD [])) ∅

/-- The ranks of all words, each within its length. -/
def allRanks (bag : TileBag) (words : List Word) : Std.TreeMap Word Ranks :=
  (byLength words).toList.foldl
    (fun ranks group => (ranksOf bag group.2).foldl (fun ranks (w, r) => ranks.insert w r) ranks) ∅

/-- The symbols of the reference lists that lack the word. -/
def symbols (s : RowSources) (w : Word) : String :=
  String.join ((s.references.filter fun (_, list) => !list.contains w).map (·.1))

/-- The row of a word with its ranks. -/
def row (s : RowSources) (counts : AnagramCounts) (ranks : Ranks) (w : Word) : Row where
  word := w
  length := w.length
  rank := ranks.rank
  firstTied := ranks.firstTied
  lastTied := ranks.lastTied
  vowels := w.vowelCount
  distinct := w.distinctCount
  anagrams := counts.count w
  points := s.bag.pointValue w
  frontHooks := s.vocabulary.frontHooks w
  backHooks := s.vocabulary.backHooks w
  isFrontHook := s.vocabulary.isFrontHook w
  isBackHook := s.vocabulary.isBackHook w
  symbols := s.symbols w
  definition := s.definition w

/-- **The rows of all words**, in the order of their bytes. -/
def rows (s : RowSources) : List Row :=
  let words := s.vocabulary.words
  let counts := AnagramCounts.ofWords words
  let ranks := allRanks s.bag words
  words.map fun w => s.row counts (ranks[w]?.getD ⟨0, 0, 0⟩) w

end RowSources

end WordStudy
