/-!
# Study sets

The named sets of words that players learn by heart.
-/

namespace WordStudy

/-- A named set of words. -/
inductive StudySet where
  | hookWords
  | frontHooks
  | backHooks
  | highFives
  | typeOneSevens
  | typeOneEights
  | typeTwoSevens
  | typeTwoEights
  | typeThreeSevens
  | typeThreeEights
  | eightsFromSevenLetterStems
  deriving DecidableEq, Repr

namespace StudySet

/-- All sets, in the order in which they are listed. -/
def all : List StudySet :=
  [hookWords, frontHooks, backHooks, highFives, typeOneSevens, typeOneEights, typeTwoSevens,
    typeTwoEights, typeThreeSevens, typeThreeEights, eightsFromSevenLetterStems]

/-- The name of a set in a query. -/
def name : StudySet → String
  | hookWords => "hook-words"
  | frontHooks => "front-hooks"
  | backHooks => "back-hooks"
  | highFives => "high-fives"
  | typeOneSevens => "type-one-sevens"
  | typeOneEights => "type-one-eights"
  | typeTwoSevens => "type-two-sevens"
  | typeTwoEights => "type-two-eights"
  | typeThreeSevens => "type-three-sevens"
  | typeThreeEights => "type-three-eights"
  | eightsFromSevenLetterStems => "eights-from-seven-stems"

/-- The set with a name, in either case. -/
def ofName? (text : String) : Option StudySet := all.find? (·.name == text.toLower)

theorem ofName?_name (set : StudySet) : ofName? set.name = some set := by
  cases set <;> decide +kernel

end StudySet

end WordStudy
