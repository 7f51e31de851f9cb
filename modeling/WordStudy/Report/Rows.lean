import WordStudy.Attributes.Row
import WordStudy.Json.Printer

/-!
# Rows as JSON

Attribute rows as a list of objects, one field for each column. A word without a row is shown
as a row without a word.
-/

namespace WordStudy

open Json

namespace Row

def blank : Row := { word := [] }

/-- The fields of a row in the order in which they are shown. -/
def fields (row : Row) : Fields :=
  [("word", .text (Word.text row.word)), ("length", .number row.length),
    ("probability_order", .number row.rank), ("min_probability_order", .number row.firstTied),
    ("max_probability_order", .number row.lastTied), ("num_vowels", .number row.vowels),
    ("num_unique_letters", .number row.distinct), ("num_anagrams", .number row.anagrams),
    ("point_value", .number row.points), ("front_hooks", .text row.frontHooks),
    ("back_hooks", .text row.backHooks), ("is_front_hook", .flag row.isFrontHook),
    ("is_back_hook", .flag row.isBackHook), ("lexicon_symbols", .text row.symbols),
    ("definition", .text row.definition)]

/-- **A list of rows as JSON.** -/
def printAll (rows : List (Option Row)) : String :=
  printList (rows.map fun row => (row.getD blank).fields)

end Row

end WordStudy
