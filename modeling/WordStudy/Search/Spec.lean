import WordStudy.Search.Condition

/-!
# Search specifications

A specification is a list of conditions that are to hold all, or of which one is to hold.
Word lists and rank windows are never alternatives: they bound the whole result.

A conjunction is **normalised** before it is planned: letters are put in upper case, lengths
that patterns and racks imply are added, ranges of one attribute are intersected and repeated
conditions dropped. A conjunction whose ranges contradict each other has no normal form.
-/

namespace WordStudy

/-- Conditions, joined by "and" or by "or". -/
structure SearchSpec where
  conditions : List Condition
  /-- All conditions are to hold. -/
  conjunction : Bool
  deriving DecidableEq, Repr

/-- An attribute on which ranges can be intersected. -/
inductive RangedAttribute where
  | length
  | vowels
  | distinct
  | points
  | anagrams
  | rank (lax : Bool)
  deriving DecidableEq, Repr

namespace RangedAttribute

/-- The condition that an attribute lies in a range. -/
def condition : RangedAttribute → Bounds → Condition
  | length, r => .length r
  | vowels, r => .vowels r
  | distinct, r => .distinct r
  | points, r => .points r
  | anagrams, r => .anagrams r
  | rank lax, r => .rank r lax

end RangedAttribute

/-- The attribute and the range of a condition on a number. -/
def Condition.ranged? : Condition → Option (RangedAttribute × Bounds)
  | .length r => some (.length, r)
  | .vowels r => some (.vowels, r)
  | .distinct r => some (.distinct, r)
  | .points r => some (.points, r)
  | .anagrams r => some (.anagrams, r)
  | .rank r lax => some (.rank lax, r)
  | _ => none

/-- Ranges by attribute, in the order in which the attributes were first met. -/
abbrev RangeList : Type := List (RangedAttribute × Bounds)

/-- Narrow the range of an attribute, `none` if nothing is left of it. -/
def RangeList.narrow : RangeList → RangedAttribute → Bounds → Option RangeList
  | [], a, r => if r.isEmpty then none else some [(a, r)]
  | (b, s) :: rest, a, r =>
    if b = a then (s.meet r).map fun both => (b, both) :: rest
    else (RangeList.narrow rest a r).map ((b, s) :: ·)

/-- A conjunction that is being normalised. -/
structure Draft where
  /-- The conditions that are no ranges, each once. -/
  others : List Condition
  ranges : RangeList

namespace Draft

def empty : Draft := ⟨[], []⟩

/-- Add a condition, `none` if it contradicts a range. -/
def add (d : Draft) (c : Condition) : Option Draft :=
  let c := c.upper
  match c.ranged? with
  | some (a, r) => (d.ranges.narrow a r).map fun ranges => { d with ranges }
  | none =>
    -- A pattern or a rack of known lengths bounds the length as well.
    let ranges? :=
      match c.lengthHint with
      | some r => d.ranges.narrow .length r
      | none => some d.ranges
    ranges?.map fun ranges =>
      -- A condition given twice is asked once.
      { others := if d.others.contains c then d.others else d.others ++ [c], ranges }

/-- The conditions, those on ranges last. -/
def conditions (d : Draft) : List Condition := d.others ++ d.ranges.map fun (a, r) => a.condition r

end Draft

namespace SearchSpec

def all (conditions : List Condition) : SearchSpec := ⟨conditions, true⟩

/-- **The normal form** of the conditions as a conjunction, `none` if they cannot all hold. -/
def normalise (spec : SearchSpec) : Option SearchSpec :=
  (spec.conditions.foldlM Draft.add Draft.empty).map fun d => all d.conditions

end SearchSpec

end WordStudy
