import WordStudy.Text.Numeral
import WordStudy.Word.Basic

/-!
# Attribute rows

What is stored about a word: numbers, hooks, flags and texts, each in a named column.
-/

namespace WordStudy

/-- The stored attributes of one word. -/
structure Row where
  word : Word
  length : Nat := 0
  /-- The rank among the words of this length. -/
  rank : Nat := 0
  /-- The first rank of the words tied with this one. -/
  firstTied : Nat := 0
  /-- The last rank of the words tied with this one. -/
  lastTied : Nat := 0
  vowels : Nat := 0
  distinct : Nat := 0
  /-- The number of words with these letters. -/
  anagrams : Nat := 0
  points : Nat := 0
  /-- Letters in lower case and in order. -/
  frontHooks : String := ""
  /-- Letters in lower case and in order. -/
  backHooks : String := ""
  isFrontHook : Bool := false
  isBackHook : Bool := false
  /-- The symbols of the reference lists that lack the word. -/
  symbols : String := ""
  definition : String := ""
  deriving DecidableEq, Repr

namespace Row

/-- The numbers of a row. -/
def numbers (row : Row) : List Nat :=
  [row.length, row.rank, row.firstTied, row.lastTied, row.vowels, row.distinct, row.anagrams,
    row.points]

/-- **The numbers fit their columns**, which have 32 bits. -/
def FitsColumns (row : Row) : Prop := ∀ n ∈ row.numbers, n ≤ Text.maxWord32

instance (row : Row) : Decidable row.FitsColumns :=
  inferInstanceAs (Decidable (∀ n ∈ row.numbers, n ≤ Text.maxWord32))

/-- The row as columns hold it: numbers wrap round in 32 bits. -/
def cut (row : Row) : Row :=
  let narrow (n : Nat) : Nat := n % (Text.maxWord32 + 1)
  { row with
    length := narrow row.length
    rank := narrow row.rank
    firstTied := narrow row.firstTied
    lastTied := narrow row.lastTied
    vowels := narrow row.vowels
    distinct := narrow row.distinct
    anagrams := narrow row.anagrams
    points := narrow row.points }

@[simp] theorem word_cut (row : Row) : row.cut.word = row.word := rfl

theorem numbers_cut (row : Row) :
    row.cut.numbers = row.numbers.map (· % (Text.maxWord32 + 1)) := rfl

theorem fitsColumns_cut (row : Row) : row.cut.FitsColumns := by
  intro n hn
  obtain ⟨m, -, rfl⟩ := List.mem_map.mp (row.numbers_cut ▸ hn)
  exact Nat.le_of_lt_succ (Nat.mod_lt m (Nat.succ_pos _))

/-- A row whose numbers fit is held as it is. -/
theorem FitsColumns.cut_eq {row : Row} (h : row.FitsColumns) : row.cut = row := by
  have hnarrow : ∀ n ∈ row.numbers, n % (Text.maxWord32 + 1) = n := fun n hn =>
    Nat.mod_eq_of_lt (Nat.lt_succ_of_le (h n hn))
  simp only [numbers, List.forall_mem_cons] at hnarrow
  obtain ⟨hlength, hrank, hfirst, hlast, hvowels, hdistinct, hanagrams, hpoints, -⟩ := hnarrow
  simp only [cut, hlength, hrank, hfirst, hlast, hvowels, hdistinct, hanagrams, hpoints]

end Row

/-- A column of the table of attributes. -/
inductive Column where
  | word
  | length
  | rank
  | firstTied
  | lastTied
  | vowels
  | distinct
  | points
  | anagrams
  | frontHooks
  | backHooks
  | isFrontHook
  | isBackHook
  | symbols
  | definition
  deriving DecidableEq, Repr

namespace Column

def all : List Column :=
  [word, length, rank, firstTied, lastTied, vowels, distinct, points, anagrams, frontHooks,
    backHooks, isFrontHook, isBackHook, symbols, definition]

/-- The name of a column in the table. -/
def name : Column → String
  | word => "word"
  | length => "length"
  | rank => "probability_order"
  | firstTied => "min_probability_order"
  | lastTied => "max_probability_order"
  | vowels => "num_vowels"
  | distinct => "num_unique_letters"
  | points => "point_value"
  | anagrams => "num_anagrams"
  | frontHooks => "front_hooks"
  | backHooks => "back_hooks"
  | isFrontHook => "is_front_hook"
  | isBackHook => "is_back_hook"
  | symbols => "lexicon_symbols"
  | definition => "definition"

def ofName? (name : String) : Option Column := all.find? (·.name == name)

theorem ofName?_name (c : Column) : ofName? c.name = some c := by
  cases c <;> decide +kernel

end Column

/-- What stands in a column: a number, or a text as its bytes. -/
inductive Cell where
  | number (n : Nat)
  | text (bytes : List UInt8)
  deriving DecidableEq, Repr

/-- What stands in a column of a row. A flag is the number 0 or 1. -/
def Row.cell (row : Row) : Column → Cell
  | .word => .text row.word
  | .length => .number row.length
  | .rank => .number row.rank
  | .firstTied => .number row.firstTied
  | .lastTied => .number row.lastTied
  | .vowels => .number row.vowels
  | .distinct => .number row.distinct
  | .points => .number row.points
  | .anagrams => .number row.anagrams
  | .frontHooks => .text (Word.ofText row.frontHooks)
  | .backHooks => .text (Word.ofText row.backHooks)
  | .isFrontHook => .number row.isFrontHook.toNat
  | .isBackHook => .number row.isBackHook.toNat
  | .symbols => .text (Word.ofText row.symbols)
  | .definition => .text (Word.ofText row.definition)

end WordStudy
