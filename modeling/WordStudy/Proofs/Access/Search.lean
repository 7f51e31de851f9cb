import WordStudy.Engine.ListSearch
import WordStudy.Proofs.Access.Plans
import WordStudy.Proofs.Access.Sets
import WordStudy.Proofs.Access.Walks

/-!
# Checked searches of a lexicon

A search plans, walks along the graphs, asks the index, tests words one by one and keeps a window of
ranks. Only the walk needs anything of the lexicon: **that all edges have capital letters**. With
that, no search makes a fault, whatever its conditions are.
-/

namespace WordStudy

namespace Checked

/-! ## §1 Phases -/

/-- The word belongs to the set; one that is not spelled in the alphabet belongs to none. -/
def memberOf (lex : Lexicon) (set : StudySet) (w : Word) : Checked Bool :=
  match w.spelledIn lex.alphabet with
  | none => return false
  | some v => member lex.classifier lex.vocabulary lex.stems set v

/-- The words that rows tell of, as they were spelled if they were found before. -/
def wordsOfRows (lex : Lexicon) (rows : List Word) : Option (List Word) → List Word
  | none => rows.filter lex.accepts
  | some words =>
    let spelling : Std.TreeMap Word Word :=
      words.foldl (fun spelling w => spelling.insert w.upper w) ∅
    rows.filterMap fun w => spelling[w.upper]?

/-- The words that the index finds. -/
def searchIndex (lex : Lexicon) (conditions : List Condition) (found : Option (List Word)) :
    Checked (List Word) := do
  let predicates ← rowQuery conditions
  let rows := lex.store.elim [] fun store =>
    match store.find predicates found with
    | .ok words => words
    | .error _ => []
  return wordsOfRows lex rows found

/-- A word, given in upper case, satisfies a condition that is checked word by word. -/
def satisfies (lex : Lexicon) (w : Word) : Condition → Checked Bool
  | .takesFront front negated => return lex.accepts (Word.ofText front ++ w) != negated
  | .takesBack back negated => return lex.accepts (w ++ Word.ofText back) != negated
  | .inSet set negated => do
    let belongs ← memberOf lex set w
    return belongs != negated
  | _ => return true

/-- The words that a step finds, given those found before. -/
def runStep (lex : Lexicon) (found : Option (List Word)) : PlanStep → Checked (List Word)
  | .graph conditions => searchMarked lex.vocabulary conditions
  | .index conditions => searchIndex lex conditions found
  | .wordwise conditions =>
    filter (fun w => conditions.allM (satisfies lex w.upper)) (found.getD [])

/-- What is found behind one more step. -/
def nextFound (lex : Lexicon) (found : Option (List Word)) (step : PlanStep) :
    Checked (Option (List Word)) := do
  let next ← runStep lex found step
  return some next

/-- The words that the steps find one after the other. -/
def runSteps (lex : Lexicon) (steps : List PlanStep) : Checked (List Word) := do
  let found ← steps.foldlM (nextFound lex) none
  return found.getD []

theorem memberOf_eq (lex : Lexicon) (set : StudySet) (w : Word) :
    memberOf lex set w = pure (lex.member set w) := by
  unfold memberOf Lexicon.member
  cases w.spelledIn lex.alphabet with
  | none => rfl
  | some v => exact member_eq _ _ _ set v

theorem searchIndex_eq (lex : Lexicon) (conditions : List Condition) (found : Option (List Word)) :
    searchIndex lex conditions found = pure (lex.searchIndex conditions found) := by
  rw [searchIndex, rowQuery_eq, pure_bind]
  cases found <;> rfl

theorem satisfies_eq (lex : Lexicon) (w : Word) (c : Condition) :
    satisfies lex w c = pure (lex.satisfies w c) := by
  cases c with
  | inSet set negated =>
    rw [satisfies, memberOf_eq, pure_bind]
    rfl
  | _ => rfl

section Searches

variable {lex : Lexicon} (hlex : lex.vocabulary.IsUpper)

include hlex in
theorem runStep_eq (found : Option (List Word)) (step : PlanStep) :
    runStep lex found step = pure (lex.runStep found step) := by
  cases step with
  | graph conditions => exact searchMarked_eq hlex conditions
  | index conditions => exact searchIndex_eq lex conditions found
  | wordwise conditions =>
    exact filter_eq fun w _ => allM_eq fun c _ => satisfies_eq lex w.upper c

include hlex in
theorem runSteps_eq (steps : List PlanStep) : runSteps lex steps = pure (lex.runSteps steps) := by
  have hnext (found : Option (List Word)) (step : PlanStep) :
      nextFound lex found step = pure (some (lex.runStep found step)) := by
    rw [nextFound, runStep_eq hlex, pure_bind]
  rw [runSteps, foldlM_eq hnext, pure_bind]
  rfl

end Searches

/-! ## §2 Plans -/

/-- The words that a plan finds. -/
def runPlan (lex : Lexicon) (plan : Plan) : Checked (List Word) := do
  let found ←
    match plan with
    | .nothing => pure []
    | .all steps _ => runSteps lex steps
    | .any branches _ => do
      let found ← branches.mapM (runSteps lex)
      pure (Lexicon.unite found.flatten)
  match plan.window? with
  | none => return found
  | some window => keepWindow window lex.bag.tables found

/-- The words that a search finds. -/
def find (lex : Lexicon) (spec : SearchSpec) (capitals : Bool) : Checked (List Word) := do
  let plan ← planOf lex.isIndexed spec
  let found ← runPlan lex plan
  return if capitals then found.map Word.upper else found

/-- The words that a search finds, and the lexicon with their rows in the cache. -/
def search (lex : Lexicon) (spec : SearchSpec) (capitals : Bool) :
    Checked (List Word × Lexicon) := do
  match ← find lex spec capitals with
  | [] => return ([], lex)
  | found => return (found, lex.refreshCache found)

section Searches

variable {lex : Lexicon} (hlex : lex.vocabulary.IsUpper)

include hlex in
theorem runPlan_eq (plan : Plan) : runPlan lex plan = pure (lex.runPlan plan) := by
  -- The window is kept alike of whatever the steps found.
  have hwindow (found : List Word) :
      (match plan.window? with
        | none => pure found
        | some window => keepWindow window lex.bag.tables found) =
      (pure (plan.window?.elim found fun window => window.keep lex.bag found) : Checked _) := by
    cases plan.window? with
    | none => rfl
    | some window => exact keepWindow_eq window lex.bag found
  cases plan with
  | nothing => exact hwindow _
  | all steps window =>
    rw [runPlan, runSteps_eq hlex, pure_bind]
    exact hwindow _
  | any branches window =>
    rw [runPlan, mapM_eq fun steps _ => runSteps_eq hlex steps]
    simp only [pure_bind, ← List.flatMap_def]
    exact hwindow _

include hlex in
theorem find_eq (spec : SearchSpec) (capitals : Bool) :
    find lex spec capitals = pure (lex.find spec capitals) := by
  rw [find, planOf_eq, pure_bind, runPlan_eq hlex, pure_bind]
  rfl

include hlex in
/-- **No search makes a fault**, whatever its conditions are. -/
theorem search_eq (spec : SearchSpec) (capitals : Bool) :
    search lex spec capitals = pure (lex.search spec capitals) := by
  rw [search, find_eq hlex, pure_bind, Lexicon.search]
  cases lex.find spec capitals <;> rfl

end Searches

/-! ## §3 Word lists -/

/-- The words that the ranges leave. -/
def narrowWords (lex : Lexicon) (bounds : ListBounds) : List Word → Checked (List Word × Lexicon)
  | [] => return ([], lex)
  | w :: rest => do
    let (anagrams, lex) := lex.anagrams w
    let (kept, lex) ← narrowWords lex bounds rest
    let points ← pointValue lex.bag.tables w
    return if bounds.anagrams.contains anagrams && bounds.vowels.contains w.vowelCount &&
        bounds.distinct.contains w.distinctCount && bounds.points.contains points then
      (w :: kept, lex)
    else (kept, lex)

/-- The words of the lists that the ranges leave. -/
def searchLists (lex : Lexicon) (spec : SearchSpec) : Checked (List Word × Lexicon) :=
  match ListBounds.ofConditions spec.conditions with
  | none => return ([], lex)
  | some bounds => narrowWords lex bounds (lex.listWords spec)

theorem narrowWords_eq (lex : Lexicon) (bounds : ListBounds) (words : List Word) :
    narrowWords lex bounds words = pure (lex.narrowWords bounds words) := by
  induction words generalizing lex with
  | nil => rfl
  | cons w rest ih =>
    rw [narrowWords, Lexicon.narrowWords]
    obtain ⟨anagrams, next⟩ := lex.anagrams w
    dsimp only
    rw [ih, pure_bind]
    obtain ⟨kept, last⟩ := next.narrowWords bounds rest
    dsimp only
    rw [pointValue_eq, pure_bind]

/-- **A search by lists** makes no fault, whatever stands on the lists. -/
theorem searchLists_eq (lex : Lexicon) (spec : SearchSpec) :
    searchLists lex spec = pure (lex.searchLists spec) := by
  unfold searchLists Lexicon.searchLists
  cases ListBounds.ofConditions spec.conditions with
  | none => rfl
  | some bounds => exact narrowWords_eq lex bounds _

end Checked

end WordStudy
