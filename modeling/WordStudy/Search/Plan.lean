import WordStudy.Search.Spec
import WordStudy.Search.Window

/-!
# Plans

A search runs in **phases**: the word graph answers patterns and racks, the attribute index
answers conditions on stored attributes, and what is left is checked word by word. A plan says
which phases run on which conditions. The phase of a condition depends on whether there is an
attribute index; a condition that needs one where there is none can find nothing.
-/

namespace WordStudy

/-- Who answers a condition. -/
inductive Phase where
  | graph
  | index
  | wordwise
  deriving DecidableEq, Repr

/-- A step of a plan: the conditions that one phase answers. -/
inductive PlanStep where
  /-- Words of the graph; ranges of lengths only prune the walk. -/
  | graph (conditions : List Condition)
  /-- Rows of the index, of the words found before if there was a step before. -/
  | index (conditions : List Condition)
  /-- A filter of the words found before. -/
  | wordwise (conditions : List Condition)
  deriving DecidableEq, Repr

/-- What a search does. -/
inductive Plan where
  /-- Nothing can be found. -/
  | nothing
  /-- One step after the other, and then the window. -/
  | all (steps : List PlanStep) (window : Option RankWindow)
  /-- The branches side by side, and then the window on all they found. -/
  | any (branches : List (List PlanStep)) (window : Option RankWindow)
  deriving DecidableEq, Repr

/-- The pattern asks for a part anywhere in the word, in letters and signs for one letter. -/
def isWidePattern (text : String) : Bool :=
  let signs := text.toList
  2 ≤ signs.length && signs.head? == some '*' && signs.getLast? == some '*' &&
    signs.all fun c => c.isAlpha || c == '*' || c == '?' || c == '.'

/-- The phase of a condition. -/
def Condition.phase (indexed : Bool) : Condition → Phase
  | .anagram .. | .subanagram .. | .consist .. => .graph
  -- A part that may stand anywhere is asked of the store, as a walk would see every word.
  | .pattern text _ => if indexed && isWidePattern text then .index else .graph
  | .length _ => if indexed then .index else .graph
  | .inList .. | .vowels _ | .containing .. | .rank .. | .distinct _ | .points _ | .anagrams _ =>
    .index
  | .inSet .hookWords _ | .inSet .frontHooks _ | .inSet .backHooks _ =>
    if indexed then .index else .wordwise
  | .inSet .. | .takesFront .. | .takesBack .. | .window .. => .wordwise

namespace Plan

def isNothing : Plan → Bool
  | nothing => true
  | _ => false

def window? : Plan → Option RankWindow
  | nothing => none
  | all _ window => window
  | any _ window => window

def ofPhase (indexed : Bool) (phase : Phase) (conditions : List Condition) : List Condition :=
  conditions.filter (·.phase indexed == phase)

/-- A step, or none if it has no conditions. -/
def stepOf (step : List Condition → PlanStep) (conditions : List Condition) : List PlanStep :=
  if conditions.isEmpty then [] else [step conditions]

/-- The steps for conditions that are to hold all, `none` if they cannot. The conditions are
normalised and have no window. Where the graph runs anyway, **lengths are left to it**. -/
def steps (indexed : Bool) (conditions : List Condition) : Option (List PlanStep) :=
  let graph := ofPhase indexed .graph conditions
  let walks := graph.any (!·.isLength)
  let index := ofPhase indexed .index conditions
  -- Lengths alone are no reason to ask the store when the graph is walked anyway.
  let index := if walks && index.all Condition.isLength then [] else index
  -- Without a store nothing answers these conditions.
  if !index.isEmpty && !indexed then none
  else
    let lengths := conditions.filter fun c => c.isLength && !graph.contains c
    let graphStep := if walks || index.isEmpty then [PlanStep.graph (graph ++ lengths)] else []
    some (graphStep ++ stepOf .index index ++
      stepOf .wordwise (ofPhase indexed .wordwise conditions))

/-- The steps for any conditions that are to hold all, `none` if they cannot. -/
def conjunction (indexed : Bool) (spec : SearchSpec) : Option (List PlanStep) :=
  match spec.normalise with
  | none => none
  | some spec => steps indexed (spec.conditions.filter (!·.isWindow))

/-- A condition that can be one of several alternatives. -/
def isAlternative (c : Condition) : Bool := !c.isList && !c.isWindow

/-- The plan for conditions of which one is to hold. **Word lists bound every branch**; a
branch that can find nothing is left out. -/
def alternatives (indexed : Bool) (spec : SearchSpec) : Plan :=
  let lists := spec.conditions.filter Condition.isList
  let branches := (spec.conditions.filter isAlternative).filterMap fun c =>
    conjunction indexed (SearchSpec.all (c :: lists))
  if branches.isEmpty then nothing else any branches (RankWindow.ofConditions spec.conditions)

/-- **The plan of a search.** A choice without alternatives is a conjunction. -/
def ofSpec (indexed : Bool) (spec : SearchSpec) : Plan :=
  if !spec.conjunction && spec.conditions.any isAlternative then alternatives indexed spec
  else
    match conjunction indexed spec with
    | none => nothing
    | some steps => all steps (RankWindow.ofConditions spec.conditions)

end Plan

end WordStudy
