import WordStudy.Lexicon.Basic
import WordStudy.Search.Plan

/-!
# Searching a lexicon

A search is planned and the plan is run. What is found has no word twice and comes in the
order of the bytes of the upper-case words, or of ranks behind a window. Letters that
wildcards filled in stay in **lower case** unless capitals are asked for.
-/

namespace WordStudy

namespace Lexicon

/-! ## §1 Phases -/

/-- The words of the rows that satisfy the conditions. A store that cannot answer has none. -/
def findRows (lex : Lexicon) (conditions : List Condition) (found : Option (List Word)) :
    List Word :=
  lex.store.elim [] fun store =>
    match store.find (RowQuery.ofConditions conditions) found with
    | .ok words => words
    | .error _ => []

/-- The words that the index finds. Among words found before, the rows decide which are kept,
and the words stay **as they were spelled**; without them, only rows of words in the vocabulary
count. -/
def searchIndex (lex : Lexicon) (conditions : List Condition) (found : Option (List Word)) :
    List Word :=
  let rows := lex.findRows conditions found
  match found with
  -- Without candidates the store may know words that the graph does not.
  | none => rows.filter lex.accepts
  | some words =>
    -- The words keep the spelling in which they were found.
    let spelling : Std.TreeMap Word Word :=
      words.foldl (fun spelling w => spelling.insert w.upper w) ∅
    rows.filterMap fun w => spelling[w.upper]?

/-- A word, given in upper case, satisfies a condition that is checked word by word. -/
def satisfies (lex : Lexicon) (w : Word) : Condition → Bool
  | .takesFront front negated => lex.accepts (Word.ofText front ++ w) != negated
  | .takesBack back negated => lex.accepts (w ++ Word.ofText back) != negated
  | .inSet set negated => lex.member set w != negated
  | _ => true

/-- The words that a step finds, given those found before. -/
def runStep (lex : Lexicon) (found : Option (List Word)) : PlanStep → List Word
  | .graph conditions => lex.vocabulary.searchMarked conditions
  | .index conditions => lex.searchIndex conditions found
  | .wordwise conditions =>
    (found.getD []).filter fun w => conditions.all (lex.satisfies w.upper)

/-- The words that the steps find one after the other. -/
def runSteps (lex : Lexicon) (steps : List PlanStep) : List Word :=
  (steps.foldl (fun found step => some (lex.runStep found step)) none).getD []

/-! ## §2 Plans -/

/-- The words of all branches in order, each once, whatever its spelling. -/
def unite (words : List Word) : List Word :=
  dropRepeats Word.upper (words.mergeSort fun v w => Word.le v.upper w.upper)

/-- The words that a plan finds. -/
def runPlan (lex : Lexicon) (plan : Plan) : List Word :=
  let found :=
    match plan with
    | .nothing => []
    | .all steps _ => lex.runSteps steps
    | .any branches _ => unite (branches.flatMap lex.runSteps)
  plan.window?.elim found fun window => window.keep lex.bag found

/-- **The words that a search finds.** -/
def find (lex : Lexicon) (spec : SearchSpec) (capitals : Bool) : List Word :=
  let found := lex.runPlan (Plan.ofSpec lex.isIndexed spec)
  if capitals then found.map Word.upper else found

/-- The words that a search finds; the rows of what it finds are then in the cache. A search
that finds nothing leaves the cache as it is. -/
def search (lex : Lexicon) (spec : SearchSpec) (capitals : Bool) : List Word × Lexicon :=
  match lex.find spec capitals with
  | [] => ([], lex)
  | found => (found, lex.refreshCache found)

end Lexicon

end WordStudy
