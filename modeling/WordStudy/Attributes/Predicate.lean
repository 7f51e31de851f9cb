import WordStudy.Attributes.Like
import WordStudy.Attributes.Row
import WordStudy.Search.Condition
import WordStudy.Text.Scientific
import WordStudy.Word.Letters

/-!
# Predicates on rows

The conditions that the attribute index answers, as predicates on the columns of a row. A
number compared with a text is compared by its **decimal digits**, and a text looked for in a
column of numbers is read as a number.
-/

namespace WordStudy

open Text

/-- A test of a row. -/
inductive Predicate where
  /-- The column lies in the range. -/
  | range (column : Column) (bounds : Bounds)
  /-- The mask covers the column, or does not if negated. -/
  | like (column : Column) (mask : String) (negated : Bool)
  | flag (column : Column) (value : Bool)
  /-- The column is one of the texts, or none of them if negated. -/
  | oneOf (column : Column) (texts : List String) (negated : Bool)
  /-- At least one of the predicates holds. -/
  | any (options : List Predicate)
  | not (inner : Predicate)
  deriving Repr

namespace Cell

def digits (n : Nat) : List UInt8 := Word.ofText (toString n)

/-- The bytes of a cell, a number by its digits. -/
def bytes : Cell → List UInt8
  | number n => digits n
  | text bytes => bytes

/-- How a cell compares with a number. -/
def order (cell : Cell) (n : Nat) : Ordering :=
  match cell with
  | number m => compare m n
  | text bytes => Word.order bytes (digits n)

/-- The cell lies in a range; the greatest number of 32 bits is no upper end, unless it is the
lower end as well. -/
def inBounds (cell : Cell) (r : Bounds) : Bool :=
  if r.least = r.greatest then cell.order r.least == .eq
  else (cell.order r.least).isGE && (r.greatest = maxWord32 || (cell.order r.greatest).isLE)

def isText (cell : Cell) (value : String) : Bool :=
  match cell with
  | number n => (ScientificNumber.read value.toList).any (·.roundsTo n)
  | text bytes => bytes == Word.ofText value

end Cell

/-- **The predicate holds** of a row. -/
def Predicate.holds (row : Row) : Predicate → Bool
  | range column bounds => (row.cell column).inBounds bounds
  | like column mask negated =>
    Mask.covers mask.toList (Utf8.characters (row.cell column).bytes) != negated
  | flag column value => (row.cell column).order value.toNat == .eq
  | oneOf column texts negated => (texts.any (row.cell column).isText) != negated
  | any options => options.attach.any fun ⟨p, _⟩ => p.holds row
  | not inner => !inner.holds row

namespace RowQuery

/-- The masks for a list of letters, one for each different letter. Negated, the word has
none of them. -/
def lettersLike (letters : String) (negated : Bool) : List Predicate :=
  let listed := Word.ofText letters
  (alphabet.filter fun l => 0 < listed.letterCount l).map fun l =>
    let times := if negated then 1 else listed.letterCount l
    .like .word (String.ofList (Mask.containing (Char.ofNat l.toNat) times)) negated

/-- The flags of a study set of hooks; no other set is stored. -/
def hookFlags : StudySet → Option Predicate
  | .frontHooks => some (.flag .isFrontHook true)
  | .backHooks => some (.flag .isBackHook true)
  | .hookWords => some (.any [.flag .isFrontHook true, .flag .isBackHook true])
  | _ => none

/-- The predicates of a condition; one that no column answers has none. A lax rank asks that
the ranks tied with the word **overlap** the range. -/
def ofCondition : Condition → List Predicate
  | .pattern text negated =>
    [.like .word (String.ofList (Mask.ofPattern text.toList)) negated]
  | .length r => [.range .length r]
  | .vowels r => [.range .vowels r]
  | .distinct r => [.range .distinct r]
  | .points r => [.range .points r]
  | .anagrams r => [.range .anagrams r]
  -- A lax range asks for a tie that meets it, a strict one for the word's own rank.
  | .rank r true => [.range .lastTied (.atLeast r.least), .range .firstTied ⟨0, r.greatest⟩]
  | .rank r false => [.range .rank r]
  | .containing letters negated => lettersLike letters negated
  | .inSet set negated =>
    ((hookFlags set).map fun p => if negated then .not p else p).toList
  | .inList words negated => [.oneOf .word (words.map String.toUpper) negated]
  | _ => []

/-- **The predicates of a list of conditions**, all of which are to hold. -/
def ofConditions (conditions : List Condition) : List Predicate := conditions.flatMap ofCondition

end RowQuery

end WordStudy
