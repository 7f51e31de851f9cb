import WordStudy.Attributes.Build
import WordStudy.Proofs.Access.Plans
import WordStudy.Proofs.Access.Sets

/-!
# Checked building of rows

A row has the points of its word, found in a table of letters, and tells whether the word without its
first or last letter is a word. Ranks ask for draws. **The words of a vocabulary are ASCII**, so that
their rows are built without a fault.
-/

namespace WordStudy

namespace Checked

open RowSources

/-! ## §1 Building -/

/-- The ranks of words that are all of one length. -/
def ranksOf (tables : TileTables) (words : List Word) : Checked (List (Word × Ranks)) := do
  let keys ← words.mapM (rankKey tables false)
  return runRanks 0 ((keys.mergeSort RankKey.le).splitBy RankKey.ties)

/-- The ranks found before and those of the words of one length. -/
def addRanks (tables : TileTables) (ranks : Std.TreeMap Word Ranks) (group : Nat × List Word) :
    Checked (Std.TreeMap Word Ranks) := do
  let more ← ranksOf tables group.2
  return more.foldl (fun ranks (w, r) => ranks.insert w r) ranks

/-- The ranks of all words, each within its length. -/
def allRanks (tables : TileTables) (words : List Word) : Checked (Std.TreeMap Word Ranks) :=
  (byLength words).toList.foldlM (addRanks tables) ∅

/-- The row of a word with its ranks. -/
def row (s : RowSources) (counts : AnagramCounts) (ranks : Ranks) (w : Word) : Checked Row := do
  let points ← pointValue s.bag.tables w
  let frontHook ← isFrontHook s.vocabulary w
  let backHook ← isBackHook s.vocabulary w
  return {
    word := w
    length := w.length
    rank := ranks.rank
    firstTied := ranks.firstTied
    lastTied := ranks.lastTied
    vowels := w.vowelCount
    distinct := w.distinctCount
    anagrams := counts.count w
    points
    frontHooks := s.vocabulary.frontHooks w
    backHooks := s.vocabulary.backHooks w
    isFrontHook := frontHook
    isBackHook := backHook
    symbols := s.symbols w
    definition := s.definition w }

/-- The rows of all words, in the order of their bytes. -/
def rows (s : RowSources) : Checked (List Row) := do
  let words := s.vocabulary.words
  let counts := AnagramCounts.ofWords words
  let ranks ← allRanks s.bag.tables words
  words.mapM fun w => row s counts (ranks[w]?.getD ⟨0, 0, 0⟩) w

/-! ## §2 Rows of ASCII words -/

theorem ranksOf_eq (bag : TileBag) (words : List Word) :
    ranksOf bag.tables words = pure (RowSources.ranksOf bag words) := by
  rw [ranksOf, mapM_eq fun w _ => rankKey_eq bag false w, pure_bind]
  rfl

theorem allRanks_eq (bag : TileBag) (words : List Word) :
    allRanks bag.tables words = pure (RowSources.allRanks bag words) := by
  refine foldlM_eq (fun ranks group => ?_) ∅
  rw [addRanks, ranksOf_eq, pure_bind]

theorem row_eq (s : RowSources) (counts : AnagramCounts) (ranks : Ranks) {w : Word}
    (hascii : w.isAscii = true) : row s counts ranks w = pure (s.row counts ranks w) := by
  rw [row, pointValue_eq, pure_bind, isFrontHook_eq hascii, pure_bind, isBackHook_eq hascii,
    pure_bind]
  rfl

/-- **The rows of a vocabulary** of ASCII words are built without a fault. -/
theorem rows_eq (s : RowSources) (hascii : ∀ w ∈ s.vocabulary.words, w.isAscii = true) :
    rows s = pure s.rows := by
  rw [rows, allRanks_eq, pure_bind]
  exact mapM_eq fun w hw => row_eq s _ _ (hascii w hw)

end Checked

end WordStudy
