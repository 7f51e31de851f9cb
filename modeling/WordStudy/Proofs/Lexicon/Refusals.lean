import WordStudy.Proofs.Lexicon.Indexed
import WordStudy.Proofs.Text.Utf8

/-!
# Searches that ask too much

What is asked of a store becomes deeper with every predicate, and beyond a thousand of them the
store refuses to answer; so it does if a text is too long. A conjunction then **finds nothing**, even
if there are words of which all its conditions hold.
-/

namespace WordStudy

open Text

/-! ## §1 Plans for the index alone -/

/-- Conditions that are all left to the index are one step. -/
theorem Plan.steps_of_phase_index {conditions : List Condition} (hne : conditions ≠ [])
    (hphase : ∀ c ∈ conditions, c.phase true = .index) :
    Plan.steps true conditions = some [.index conditions] := by
  have hindex : ofPhase true .index conditions = conditions :=
    List.filter_eq_self.mpr fun c hc => by simp [hphase c hc]
  have hother {phase : Phase} (hne : phase ≠ .index) : ofPhase true phase conditions = [] :=
    List.filter_eq_nil_iff.mpr fun c hc => by simpa [hphase c hc] using hne.symm
  simp [Plan.steps, stepOf, hindex, hother, hne]

/-- The steps of a plan that is no choice have one of the three shapes. -/
theorem Plan.exists_hasSteps {indexed : Bool} {spec : SearchSpec} {steps : List PlanStep}
    {window : Option RankWindow} (hplan : Plan.ofSpec indexed spec = .all steps window) :
    ∃ conditions, Plan.HasSteps indexed conditions steps := by
  have hmem : steps ∈ (Plan.ofSpec indexed spec).branches := by simp [hplan, Plan.branches]
  obtain ⟨spec', hconjunction, _⟩ := Plan.mem_branches_ofSpec hmem
  unfold Plan.conjunction at hconjunction
  split at hconjunction
  · cases hconjunction
  · exact ⟨_, Plan.hasSteps_of_steps hconjunction⟩

namespace Lexicon

variable {lex : Lexicon}

/-! ## §2 A store that refuses -/

theorem searchIndex_of_refused {asked : List Condition} {found : Option (List Word)}
    (hrefused : isAskable (RowQuery.ofConditions asked) found = false) :
    lex.searchIndex asked found = [] := by
  have hrows : lex.findRows asked found = [] := by
    unfold findRows
    cases lex.store with
    | none => rfl
    | some store =>
      cases hfind : store.find (RowQuery.ofConditions asked) found with
      | error fault => rw [Option.elim_some, hfind]
      | ok words =>
        -- A store that answers was asked something that fits.
        obtain ⟨-, -, -, hasked, -⟩ := AttributeStore.find_eq_ok hfind
        rw [hasked] at hrefused
        cases hrefused
  cases found <;> simp [searchIndex, hrows]

/-- Word by word, nothing comes out of nothing. -/
theorem foldl_stepOf_wordwise (asked : List Condition) :
    (Plan.stepOf .wordwise asked).foldl (fun found step => some (lex.runStep found step))
      (some []) = some [] := by
  unfold Plan.stepOf
  split <;> rfl

/-- **Steps that ask too much find nothing.** -/
theorem runSteps_of_refused {conditions : List Condition} {steps : List PlanStep}
    (hshape : Plan.HasSteps lex.isIndexed conditions steps)
    (hrefused : lex.fitsSteps none steps = false) : lex.runSteps steps = [] := by
  cases hshape with
  | graph _ =>
    -- Nothing is asked of the store, so nothing can be refused.
    rw [fitsSteps_graph, fitsSteps_wordwise] at hrefused
    cases hrefused
  | both _ =>
    -- The words of the graph are candidates.
    rw [fitsSteps_graph, fitsSteps_index, fitsSteps_wordwise, Bool.and_true] at hrefused
    rw [runSteps, List.foldl_cons, List.foldl_cons, runStep, runStep,
      searchIndex_of_refused hrefused, foldl_stepOf_wordwise]
    rfl
  | index _ _ =>
    rw [fitsSteps_index, fitsSteps_wordwise, Bool.and_true] at hrefused
    rw [runSteps, List.foldl_cons, runStep, searchIndex_of_refused hrefused, foldl_stepOf_wordwise]
    rfl

/-- **A conjunction that asks too much finds nothing**: the store refuses to answer. -/
theorem find_of_refused {spec : SearchSpec} {steps : List PlanStep} {window : Option RankWindow}
    (hplan : Plan.ofSpec lex.isIndexed spec = .all steps window)
    (hrefused : lex.fitsStore (Plan.ofSpec lex.isIndexed spec) = false) (capitals : Bool) :
    lex.find spec capitals = [] := by
  obtain ⟨conditions, hshape⟩ := Plan.exists_hasSteps hplan
  rw [hplan, fitsStore, Plan.branches, List.all_cons, List.all_nil, Bool.and_true] at hrefused
  have hsteps := runSteps_of_refused hshape hrefused
  have hrun : lex.runPlan (Plan.ofSpec lex.isIndexed spec) = [] := by
    rw [hplan]
    cases window <;> simp [runPlan, Plan.window?, hsteps, RankWindow.keep]
  cases capitals <;> simp [find, hrun]

/-! ## §3 Words that are missed -/

end Lexicon

/-! ## §4 Letters listed again and again -/

/-- All letters but `A`, and behind them so many hyphens. -/
def otherLetters (hyphens : Nat) : String :=
  String.ofList ((alphabet.drop 1).map charOf ++ List.replicate hyphens '-')

/-- A text of so many letters. -/
def longText (n : Nat) : String := String.ofList (List.replicate n 'A')

namespace Lexicon

end Lexicon

end WordStudy
