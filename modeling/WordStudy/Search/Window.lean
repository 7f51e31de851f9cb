import WordStudy.Search.Condition
import WordStudy.Tiles.Draws

/-!
# Windows of ranks

Words are **ranked** by the number of draws that give their letters, most draws first; words
with as many draws are tied and stand in the order of their alphagrams and then of their
bytes. A window keeps the words between two ranks of a result.

- A **strict** bound holds for every word that is kept.
- A **lax** bound is widened over a run of tied words that it would cut, though never beyond
  the strict bound on its side.
-/

namespace WordStudy

open Text

/-! ## §1 Ranking -/

/-- What decides where a word is ranked. -/
structure RankKey where
  draws : Nat
  /-- The alphagram, left out where ties go by the word alone. -/
  alphagram : Option Word
  /-- The word in upper case. -/
  word : Word
  deriving DecidableEq, Repr

namespace RankKey

/-- The key of a word; a legacy one has no alphagram. -/
def ofWord (bag : TileBag) (legacy : Bool) (w : Word) : RankKey where
  draws := bag.draws w.upper
  alphagram := if legacy then none else some w.upper.alphagram
  word := w.upper

/-- The words have as many draws. -/
def ties (a b : RankKey) : Bool := a.draws == b.draws

/-- Missing alphagrams come first. -/
def alphagramOrder : Option Word → Option Word → Ordering
  | none, none => .eq
  | none, some _ => .lt
  | some _, none => .gt
  | some a, some b => Word.order a b

def order (a b : RankKey) : Ordering :=
  (compare b.draws a.draws).then
    ((alphagramOrder a.alphagram b.alphagram).then (Word.order a.word b.word))

def le (a b : RankKey) : Bool := (order a b).isLE

end RankKey

/-- A list without the elements whose key is the one of the element before. -/
def dropRepeats {α κ : Type} [DecidableEq κ] (key : α → κ) : List α → List α
  | [] => []
  | a :: rest => a :: go (key a) rest
where
  /-- `last` is the key of the element before. -/
  go (last : κ) : List α → List α
    | [] => []
    | a :: rest => if key a = last then go last rest else a :: go (key a) rest

/-- **The words in the order of their ranks** with their keys. Words that differ in case only
have one rank, and the first of them is kept. -/
def rankWords (bag : TileBag) (legacy : Bool) (words : List Word) : List (RankKey × Word) :=
  let keyed := words.map fun w => (RankKey.ofWord bag legacy w, w)
  dropRepeats (·.1) (keyed.mergeSort fun a b => RankKey.le a.1 b.1)

/-! ## §2 Windows -/

/-- A window of ranks, the first rank being 1. -/
structure RankWindow where
  strict : Bounds
  lax : Bounds
  legacy : Bool
  deriving DecidableEq, Repr

namespace RankWindow

def all : RankWindow := ⟨⟨0, maxWord32⟩, ⟨0, maxWord32⟩, false⟩

/-- The window narrowed by a condition; one on anything else does not narrow it. -/
def narrow (window : RankWindow) : Condition → RankWindow
  | .window range true legacy =>
    { window with lax := window.lax.narrow range, legacy := window.legacy || legacy }
  | .window range false legacy =>
    { window with strict := window.strict.narrow range, legacy := window.legacy || legacy }
  | _ => window

/-- The window that all window conditions leave, `none` if there is no such condition. -/
def ofConditions (conditions : List Condition) : Option RankWindow :=
  if conditions.any Condition.isWindow then some (conditions.foldl narrow all) else none

/-- The place of a rank in a list of `size` words; ranks beyond the last one are put there. -/
def place (size rank : Nat) : Nat := min (rank - 1) (size - 1)

def tiedAt (draws : Array Nat) (i j : Nat) : Bool := draws[i]? == draws[j]?

/-- The lower edge moved down over a run of tied words, to `floor` at the lowest. -/
def lowerEdge (draws : Array Nat) (floor : Nat) : Nat → Nat
  | 0 => 0
  | edge + 1 =>
    if floor < edge + 1 && tiedAt draws edge (edge + 1) then lowerEdge draws floor edge
    else edge + 1

/-- The upper edge moved up over a run of tied words, by `left` places at most. -/
def upperEdge (draws : Array Nat) : Nat → Nat → Nat
  | 0, edge => edge
  | left + 1, edge =>
    if tiedAt draws (edge + 1) edge then upperEdge draws left (edge + 1) else edge

/-- No rank of a list of `size` words can be in the window. -/
def misses (window : RankWindow) (size : Nat) : Bool :=
  size < window.strict.least || size < window.lax.least ||
    window.strict.greatest == 0 || window.lax.greatest == 0

/-- **The words in the window**, in the order of their ranks. Whether the window lies within
the list is decided by the number of words given, repeated ones included. -/
def keep (window : RankWindow) (bag : TileBag) (words : List Word) : List Word :=
  let size := words.length
  let low := max (place size window.strict.least) (place size window.lax.least)
  let high := min (place size window.strict.greatest) (place size window.lax.greatest)
  -- The size is that of the words given, repetitions and all.
  if size = 0 || window.misses size || high < low then []
  else
    let ranked := rankWords bag window.legacy words
    let draws := (ranked.map (·.1.draws)).toArray
    let last := ranked.length - 1
    let high := min high last
    let floor := place size window.strict.least
    let ceiling := min (place size window.strict.greatest) last
    -- Ranks that are tied with the ends of the window are kept with them.
    let low := lowerEdge draws floor (min low high)
    let high := upperEdge draws (ceiling - high) high
    ((ranked.drop low).take (high - low + 1)).map (·.2)

end RankWindow

/-! ## §3 Small laws -/

/-- Dropping repeats drops elements only. -/
theorem dropRepeats_sublist {α κ : Type} [DecidableEq κ] (key : α → κ) (l : List α) :
    (dropRepeats key l).Sublist l := by
  have go : ∀ (last : κ) (l : List α), (dropRepeats.go key last l).Sublist l := by
    intro last l
    induction l generalizing last with
    | nil => exact .slnil
    | cons a rest ih =>
      simp only [dropRepeats.go]
      split
      · exact (ih last).cons a
      · exact (ih (key a)).cons_cons a
  cases l with
  | nil => exact .slnil
  | cons a rest => exact (go (key a) rest).cons_cons a

end WordStudy
