import WordStudy.Proofs.Graph.Marks
import WordStudy.Proofs.Lexicon.History
import WordStudy.Proofs.Lexicon.Reading
import WordStudy.Proofs.Search.Window

/-!
# Searches answer their specification

A plan distributes the conditions of a specification over phases, runs them one after the other and
unites the branches of a choice. Whatever the plan, what comes out is what comes out of reading the
specification word by word, if **each phase answers the conditions that are left to it**.
-/

namespace WordStudy

namespace Plan

/-! ## §1 The steps of a plan -/

/-- What is run side by side. -/
def branches : Plan → List (List PlanStep)
  | nothing => []
  | all steps _ => [steps]
  | any branches _ => branches

/-- Conditions may be listed in any order, and more than once. -/
theorem all_eq_of_mem_iff {conditions others : List Condition} (holds : Condition → Bool)
    (h : ∀ c, c ∈ conditions ↔ c ∈ others) : conditions.all holds = others.all holds := by
  rw [Bool.eq_iff_iff, List.all_eq_true, List.all_eq_true]
  simp only [h]

theorem mem_ofPhase {indexed : Bool} {phase : Phase} {conditions : List Condition} {c : Condition} :
    c ∈ ofPhase indexed phase conditions ↔ c ∈ conditions ∧ c.phase indexed = phase := by
  simp [ofPhase]

/-- The lengths that a step on the graph is given besides the conditions of its own phase. -/
def addedLengths (indexed : Bool) (conditions : List Condition) : List Condition :=
  conditions.filter fun c => c.isLength && !(ofPhase indexed .graph conditions).contains c

/-- **The three shapes** of the steps for a conjunction. -/
inductive HasSteps (indexed : Bool) (conditions : List Condition) : List PlanStep → Prop
  /-- The graph and nothing else: what the index would be asked is lengths. -/
  | graph (hlengths : ∀ c ∈ conditions, c.phase indexed = .index → c.isLength = true) :
    HasSteps indexed conditions
      (.graph (ofPhase indexed .graph conditions ++ addedLengths indexed conditions) ::
        stepOf .wordwise (ofPhase indexed .wordwise conditions))
  /-- The graph, and then the index on what the graph found. -/
  | both (hindexed : indexed = true) :
    HasSteps indexed conditions
      (.graph (ofPhase indexed .graph conditions ++ addedLengths indexed conditions) ::
        .index (ofPhase indexed .index conditions) ::
        stepOf .wordwise (ofPhase indexed .wordwise conditions))
  /-- The index alone. -/
  | index (hindexed : indexed = true) (hgraph : ∀ c ∈ conditions, c.phase indexed ≠ .graph) :
    HasSteps indexed conditions
      (.index (ofPhase indexed .index conditions) ::
        stepOf .wordwise (ofPhase indexed .wordwise conditions))

theorem isLength_phase {c : Condition} (h : c.isLength = true) : c.phase true = .index := by
  cases c <;> simp [Condition.isLength] at h
  rfl

theorem stepOf_of_ne_nil {step : List Condition → PlanStep} {conditions : List Condition}
    (h : conditions ≠ []) : stepOf step conditions = [step conditions] := by
  simp [stepOf, h]

/-- **A plan has one of the three shapes.** -/
theorem hasSteps_of_steps {indexed : Bool} {conditions : List Condition} {steps : List PlanStep}
    (h : Plan.steps indexed conditions = some steps) : HasSteps indexed conditions steps := by
  unfold Plan.steps at h
  extract_lets graph walks index left lengths graphStep at h
  have hindex {c : Condition} : c ∈ index ↔ c ∈ conditions ∧ c.phase indexed = .index := mem_ofPhase
  -- Lengths alone are taken from the index where the graph is walked anyhow.
  by_cases hdrop : (walks && index.all Condition.isLength) = true
  · have hleft : left = [] := by simp only [left, hdrop, if_true]
    have hwalks : walks = true := (Bool.and_eq_true_iff.mp hdrop).1
    simp only [hleft, graphStep, hwalks, List.isEmpty_nil, Bool.not_true, Bool.false_and,
      Bool.true_or, if_true, Bool.false_eq_true, if_false, Option.some.injEq] at h
    subst h
    refine .graph fun c hc hphase => ?_
    exact List.all_eq_true.mp (Bool.and_eq_true_iff.mp hdrop).2 c (hindex.mpr ⟨hc, hphase⟩)
  · have hleft : left = index := by simp only [left, hdrop, if_false, Bool.false_eq_true]
    simp only [hleft, graphStep] at h
    by_cases hnone : index = []
    · -- Nothing for the index: the graph is walked even if no condition asks for it.
      simp only [hnone, List.isEmpty_nil, Bool.not_true, Bool.false_and, Bool.or_true, if_true,
        Bool.false_eq_true, if_false, Option.some.injEq] at h
      subst h
      refine .graph fun c hc hphase => ?_
      have hmem := hindex.mpr ⟨hc, hphase⟩
      simp [hnone] at hmem
    · have hindexed : indexed = true := by
        cases indexed with
        | true => rfl
        | false => simp [hnone] at h
      subst hindexed
      simp only [Bool.not_true, Bool.and_false, Bool.false_eq_true, if_false,
        stepOf_of_ne_nil hnone, List.isEmpty_eq_false_iff.mpr hnone, Bool.or_false,
        Option.some.injEq] at h
      subst h
      by_cases hwalks : walks = true
      · simp only [hwalks, if_true]
        exact .both rfl
      · simp only [hwalks, if_false, Bool.false_eq_true]
        refine .index rfl fun c hc hphase => hwalks ?_
        -- A condition for the graph is no length where there is an index.
        have hlength : c.isLength = false := by
          by_contra hno
          rw [isLength_phase (by simpa using hno)] at hphase
          cases hphase
        exact List.any_eq_true.mpr ⟨c, mem_ofPhase.mpr ⟨hc, hphase⟩, by simp [hlength]⟩

/-- The branches of a choice, those that can find something. -/
theorem branches_alternatives (indexed : Bool) (spec : SearchSpec) :
    (alternatives indexed spec).branches =
      (spec.conditions.filter isAlternative).filterMap fun c =>
        conjunction indexed (SearchSpec.all (c :: spec.conditions.filter Condition.isList)) := by
  unfold alternatives
  simp only
  split
  -- No branch is left: the plan is `nothing`, which has none.
  · next hempty => exact (List.isEmpty_iff.mp hempty).symm
  · rfl

/-- Every branch of a plan is a conjunction of conditions of the specification. -/
theorem mem_branches_ofSpec {indexed : Bool} {spec : SearchSpec} {steps : List PlanStep}
    (h : steps ∈ (ofSpec indexed spec).branches) :
    ∃ spec', conjunction indexed spec' = some steps ∧
      ∀ c ∈ spec'.conditions, c ∈ spec.conditions := by
  unfold ofSpec at h
  split at h
  · -- A branch of a choice is one alternative and all lists, both taken as they stand.
    rw [branches_alternatives] at h
    obtain ⟨c, hmem, hc⟩ := List.mem_filterMap.mp h
    refine ⟨_, hc, ?_⟩
    intro d hd
    rcases List.mem_cons.mp hd with rfl | hd
    · exact (List.mem_filter.mp hmem).1
    · exact (List.mem_filter.mp hd).1
  · split at h
    · simp [branches] at h
    · next steps' hsteps =>
      have heq : steps = steps' := by simpa [branches] using h
      exact ⟨spec, heq ▸ hsteps, fun _ hc => hc⟩

/-- **The index is asked** what is left to it, if there is one. -/
theorem HasSteps.of_index_mem {indexed : Bool} {conditions asked : List Condition}
    {steps : List PlanStep} (h : HasSteps indexed conditions steps)
    (hasked : .index asked ∈ steps) :
    indexed = true ∧ asked = ofPhase indexed .index conditions := by
  have hwordwise : PlanStep.index asked ∉
      stepOf .wordwise (ofPhase indexed .wordwise conditions) := by
    unfold stepOf
    split <;> simp
  cases h with
  | graph _ => simp [hwordwise] at hasked
  | both hindexed => exact ⟨hindexed, by simpa [hwordwise] using hasked⟩
  | index hindexed _ => exact ⟨hindexed, by simpa [hwordwise] using hasked⟩

/-- What the index is asked **comes from the specification**. -/
theorem comesFrom_of_index_mem {indexed : Bool} {spec : SearchSpec} {steps : List PlanStep}
    (hsteps : steps ∈ (ofSpec indexed spec).branches) {asked : List Condition}
    (hasked : .index asked ∈ steps) :
    indexed = true ∧
      ∀ c ∈ asked, c.phase indexed = .index ∧ c.ComesFrom spec.conditions := by
  obtain ⟨spec', hconjunction, hsub⟩ := mem_branches_ofSpec hsteps
  unfold conjunction at hconjunction
  split at hconjunction
  · cases hconjunction
  · next normal hnormal =>
    obtain ⟨hindexed, rfl⟩ := (hasSteps_of_steps hconjunction).of_index_mem hasked
    refine ⟨hindexed, fun c hc => ?_⟩
    obtain ⟨hmem, hphase⟩ := mem_ofPhase.mp hc
    have hcomes := SearchSpec.comesFrom_of_normalise hnormal c (List.mem_filter.mp hmem).1
    exact ⟨hphase, hcomes.mono hsub⟩

/-- **Where there are no steps**, a condition needs an index and there is none. -/
theorem exists_of_steps_eq_none {indexed : Bool} {conditions : List Condition}
    (h : Plan.steps indexed conditions = none) :
    indexed = false ∧ ∃ c ∈ conditions, c.phase indexed = .index := by
  unfold Plan.steps at h
  extract_lets graph walks index left lengths graphStep at h
  split at h
  · next hleft =>
    simp only [Bool.and_eq_true, Bool.not_eq_true', List.isEmpty_eq_false_iff] at hleft
    obtain ⟨c, hc⟩ := List.exists_mem_of_ne_nil _ hleft.1
    have hmem : c ∈ index := by
      simp only [left] at hc
      split at hc
      · simp at hc
      · exact hc
    exact ⟨hleft.2, c, mem_ofPhase.mp hmem⟩
  · cases h

end Plan

/-- The conditions that a step answers. -/
def PlanStep.conditions : PlanStep → List Condition
  | .graph conditions => conditions
  | .index conditions => conditions
  | .wordwise conditions => conditions

/-- **Every condition of a conjunction is left to a step**, and none is made up. -/
theorem Plan.HasSteps.mem_conditions {indexed : Bool} {conditions : List Condition}
    {steps : List PlanStep} (h : HasSteps indexed conditions steps) (c : Condition) :
    c ∈ steps.flatMap PlanStep.conditions ↔ c ∈ conditions := by
  have hwordwise : c ∈ (stepOf .wordwise (ofPhase indexed .wordwise conditions)).flatMap
      PlanStep.conditions ↔ c ∈ conditions ∧ c.phase indexed = .wordwise := by
    rw [← mem_ofPhase]
    cases hw : ofPhase indexed .wordwise conditions <;>
      simp [stepOf, PlanStep.conditions]
  have hlengths : c ∈ addedLengths indexed conditions → c ∈ conditions :=
    fun hc => (List.mem_filter.mp hc).1
  cases h with
  | graph hindex =>
    simp only [List.flatMap_cons, PlanStep.conditions, List.mem_append, hwordwise, mem_ofPhase]
    constructor
    · rintro ((⟨hc, _⟩ | hc) | ⟨hc, _⟩)
      · exact hc
      · exact hlengths hc
      · exact hc
    · intro hc
      cases hphase : c.phase indexed with
      | graph => exact .inl (.inl ⟨hc, rfl⟩)
      | wordwise => exact .inr ⟨hc, rfl⟩
      | index =>
        -- It is a length, so it is among those added to the step.
        have hgraph : c ∉ ofPhase indexed .graph conditions := by
          simp [mem_ofPhase, hphase]
        exact .inl (.inr (List.mem_filter.mpr ⟨hc, by simp [hindex c hc hphase, hgraph]⟩))
  | both =>
    simp only [List.flatMap_cons, PlanStep.conditions, List.mem_append, hwordwise, mem_ofPhase]
    constructor
    · rintro ((⟨hc, _⟩ | hc) | ⟨hc, _⟩ | ⟨hc, _⟩)
      · exact hc
      · exact hlengths hc
      · exact hc
      · exact hc
    · intro hc
      cases hphase : c.phase indexed with
      | graph => exact .inl (.inl ⟨hc, rfl⟩)
      | wordwise => exact .inr (.inr ⟨hc, rfl⟩)
      | index => exact .inr (.inl ⟨hc, rfl⟩)
  | index hindexed hgraph =>
    simp only [List.flatMap_cons, PlanStep.conditions, List.mem_append, hwordwise, mem_ofPhase]
    constructor
    · rintro (⟨hc, _⟩ | ⟨hc, _⟩)
      · exact hc
      · exact hc
    · intro hc
      cases hphase : c.phase indexed with
      | graph => exact absurd hphase (hgraph c hc)
      | wordwise => exact .inr ⟨hc, rfl⟩
      | index => exact .inl ⟨hc, rfl⟩

theorem Plan.HasSteps.ne_nil {indexed : Bool} {conditions : List Condition}
    {steps : List PlanStep} (h : HasSteps indexed conditions steps) : steps ≠ [] := by
  cases h <;> simp

namespace Lexicon

variable {lex : Lexicon} {holds : Word → Condition → Bool}

/-! ## §2 What a step finds -/

/-- **What was found**, in upper case, is the words of the vocabulary of which something holds, in
the order in which they are listed. -/
def Finds (lex : Lexicon) (found : List Word) (p : Word → Bool) : Prop :=
  found.map Word.upper = lex.vocabulary.words.filter p

/-- What was found before a step; before the first one, nothing is asked yet. -/
def FoundBefore (lex : Lexicon) (p : Word → Bool) : Option (List Word) → Prop
  | none => ∀ w ∈ lex.vocabulary.words, p w = true
  | some found => lex.Finds found p

theorem Finds.congr {found : List Word} {p q : Word → Bool} (h : lex.Finds found p)
    (hpq : ∀ w ∈ lex.vocabulary.words, p w = q w) : lex.Finds found q :=
  h.trans (List.filter_congr hpq)

/-- A step **answers its conditions**: it finds, of what was found before, the words of which all
its conditions hold. -/
def StepAnswers (lex : Lexicon) (holds : Word → Condition → Bool) (found : Option (List Word))
    (step : PlanStep) : Prop :=
  ∀ p, lex.FoundBefore p found →
    lex.Finds (lex.runStep found step) fun w => p w && step.conditions.all (holds w)

/-- Steps that answer their conditions one after the other. -/
inductive StepsAnswer (lex : Lexicon) (holds : Word → Condition → Bool) :
    Option (List Word) → List PlanStep → Prop
  | nil {found : Option (List Word)} : StepsAnswer lex holds found []
  | cons {found : Option (List Word)} {step : PlanStep} {steps : List PlanStep}
    (hstep : lex.StepAnswers holds found step)
    (hsteps : StepsAnswer lex holds (some (lex.runStep found step)) steps) :
    StepsAnswer lex holds found (step :: steps)

/-- **Steps that answer their conditions** answer them together. -/
theorem StepsAnswer.foundBefore {found : Option (List Word)} {steps : List PlanStep}
    (h : lex.StepsAnswer holds found steps) {p : Word → Bool} (hp : lex.FoundBefore p found) :
    lex.FoundBefore (fun w => p w && (steps.flatMap PlanStep.conditions).all (holds w))
      (steps.foldl (fun found step => some (lex.runStep found step)) found) := by
  induction h generalizing p with
  | nil => simpa using hp
  | cons hstep _ ih =>
    have hrest := ih (p := _) (hstep p hp)
    simpa [List.all_append, Bool.and_assoc] using hrest

/-- What every phase must do for a plan to answer a reading of conditions. -/
structure PhasesAnswer (lex : Lexicon) (holds : Word → Condition → Bool) : Prop where
  graph : ∀ w c, c.phase lex.isIndexed = .graph → holds w c = c.fits w
  length : ∀ w r, holds w (.length r) = (Condition.length r).fits w
  wordwise : ∀ w c, c.phase lex.isIndexed = .wordwise → holds w c = lex.satisfies w c
  missing : lex.isIndexed = false → ∀ w c, c.phase false = .index → holds w c = false

/-- What the graph finds, marked, is what fits the conditions. -/
theorem IsSound.finds_searchMarked (h : lex.IsSound) (conditions : List Condition) :
    lex.Finds (lex.vocabulary.searchMarked conditions) fun w => conditions.all (·.fits w) := by
  have hsearch : (lex.vocabulary.searchMarked conditions).map Word.upper =
      lex.vocabulary.search conditions := by
    unfold Vocabulary.searchMarked Vocabulary.search
    cases GraphQuery.ofConditions conditions with
    | none => rfl
    | some q =>
      -- Marks only lower letters, and a word of capitals is its own upper case.
      have hmarks (w : Word) (hw : w ∈ lex.vocabulary.run q) :
          (Word.upper ∘ q.markWildcards) w = id w := by
        rw [h.vocabulary.run_eq_filter] at hw
        exact q.upper_markWildcards (h.capitals w (List.mem_filter.mp hw).1).isPlain
      rw [List.map_map, List.map_congr_left hmarks, List.map_id]
  rw [Finds, hsearch, h.vocabulary.search_eq_filter]

/-- **A step on the graph** answers conditions for the graph and lengths. -/
theorem IsSound.graph_answers (h : lex.IsSound) (hphases : lex.PhasesAnswer holds)
    {conditions : List Condition}
    (hconditions : ∀ c ∈ conditions, c.phase lex.isIndexed = .graph ∨ c.isLength = true) :
    lex.StepAnswers holds none (.graph conditions) := by
  intro p hp
  have hfits (w : Word) : conditions.all (·.fits w) = conditions.all (holds w) := by
    rw [Bool.eq_iff_iff, List.all_eq_true, List.all_eq_true]
    refine forall₂_congr fun c hc => ?_
    rcases hconditions c hc with hphase | hlength
    · rw [hphases.graph w c hphase]
    · cases c with
      | length r => rw [hphases.length]
      | _ => cases hlength
  refine (h.finds_searchMarked conditions).congr fun w hw => ?_
  simp only [hp w hw, Bool.true_and, hfits, PlanStep.conditions]

/-- **A step word by word** answers its conditions. -/
theorem PhasesAnswer.wordwise_answers (hphases : lex.PhasesAnswer holds)
    {conditions : List Condition}
    (hconditions : ∀ c ∈ conditions, c.phase lex.isIndexed = .wordwise) (found : List Word) :
    lex.StepAnswers holds (some found) (.wordwise conditions) := by
  intro p hp
  -- Both readings agree on the conditions of this step, whatever the spelling of the word.
  have hsatisfies (w : Word) : conditions.all (lex.satisfies w) = conditions.all (holds w) := by
    rw [Bool.eq_iff_iff, List.all_eq_true, List.all_eq_true]
    exact forall₂_congr fun c hc => by rw [hphases.wordwise w c (hconditions c hc)]
  have hfilter : (found.filter fun w => conditions.all (lex.satisfies w.upper)).map Word.upper =
      (found.map Word.upper).filter fun w => conditions.all (holds w) := by
    rw [List.filter_map]
    simp only [hsatisfies, Function.comp_def]
  have hfound : found.map Word.upper = lex.vocabulary.words.filter p := hp
  rw [Finds, runStep, Option.getD_some, hfilter, hfound, List.filter_filter]
  exact List.filter_congr fun w _ => Bool.and_comm _ _

/-! ## §3 What a plan finds -/

/-- What is found behind the first steps of a plan; before any, nothing is asked yet. -/
def foundBy (lex : Lexicon) (steps : List PlanStep) : Option (List Word) :=
  steps.foldl (fun found step => some (lex.runStep found step)) none

/-- The index answers wherever a plan asks it, given what was found until then. -/
def IndexAnswers (lex : Lexicon) (holds : Word → Condition → Bool) (steps : List PlanStep) : Prop :=
  ∀ before conditions behind, steps = before ++ .index conditions :: behind →
    lex.StepAnswers holds (lex.foundBy before) (.index conditions)

/-- **The steps of a plan answer their conditions** if the index does. -/
theorem IsSound.stepsAnswer (h : lex.IsSound) (hphases : lex.PhasesAnswer holds)
    {conditions : List Condition} {steps : List PlanStep}
    (hsteps : Plan.HasSteps lex.isIndexed conditions steps)
    (hindex : lex.IndexAnswers holds steps) : lex.StepsAnswer holds none steps := by
  have hgraph : lex.StepAnswers holds none (.graph
      (Plan.ofPhase lex.isIndexed .graph conditions ++
        Plan.addedLengths lex.isIndexed conditions)) := by
    apply h.graph_answers hphases
    intro c hc
    rcases List.mem_append.mp hc with hc | hc
    · exact .inl (Plan.mem_ofPhase.mp hc).2
    · exact .inr (by simpa using (Bool.and_eq_true_iff.mp (List.mem_filter.mp hc).2).1)
  have hwordwise (found : List Word) : lex.StepsAnswer holds (some found)
      (Plan.stepOf .wordwise (Plan.ofPhase lex.isIndexed .wordwise conditions)) := by
    unfold Plan.stepOf
    split
    · exact .nil
    · exact .cons (hphases.wordwise_answers (fun c hc => (Plan.mem_ofPhase.mp hc).2) found) .nil
  -- The index is asked about what the graph found, or about all words if it was not walked.
  cases hsteps with
  | graph _ => exact .cons hgraph (hwordwise _)
  | both _ => exact .cons hgraph (.cons (hindex [_] _ _ rfl) (hwordwise _))
  | index _ _ => exact .cons (hindex [] _ _ rfl) (hwordwise _)

/-- Behind a step, something was found, be it no word. -/
theorem finds_runSteps {steps : List PlanStep} {p : Word → Bool} (hne : steps ≠ [])
    (h : lex.FoundBefore p (lex.foundBy steps)) : lex.Finds (lex.runSteps steps) p := by
  have hsome (steps : List PlanStep) (found : List Word) :
      (steps.foldl (fun found step => some (lex.runStep found step)) (some found)).isSome := by
    induction steps generalizing found with
    | nil => rfl
    | cons step steps ih => exact ih _
  cases steps with
  | nil => exact absurd rfl hne
  | cons step steps =>
    obtain ⟨found, hfound⟩ := Option.isSome_iff_exists.mp (hsome steps (lex.runStep none step))
    rw [foundBy, List.foldl_cons, hfound] at h
    rw [runSteps, List.foldl_cons, hfound]
    exact h

/-- How the conditions of a plan are read. -/
structure ReadsSoundly (lex : Lexicon) (holds : Word → Condition → Bool) : Prop where
  phases : lex.PhasesAnswer holds
  reading : ∀ w ∈ lex.vocabulary.words, Condition.SoundReading (holds w)
  window : ∀ w range lax legacy, holds w (.window range lax legacy) = true

/-- Lax ranges of ranks are harmless among the conditions. -/
def LaxIsSound (lex : Lexicon) (holds : Word → Condition → Bool) (conditions : List Condition) :
    Prop :=
  ∀ w ∈ lex.vocabulary.words,
    Condition.LaxMeets (holds w) ∨ conditions.countP Condition.isLax ≤ 1

/-- Windows bound no single word. -/
theorem ReadsSoundly.all_filter (h : lex.ReadsSoundly holds) (conditions : List Condition)
    (w : Word) : (conditions.filter (!·.isWindow)).all (holds w) = conditions.all (holds w) := by
  rw [List.all_filter]
  congr 1
  funext c
  cases c <;> simp [Condition.isWindow, h.window]

/-- **A conjunction that can be planned** finds the words of which all its conditions hold. -/
theorem IsSound.finds_conjunction (h : lex.IsSound) (hreads : lex.ReadsSoundly holds)
    {spec : SearchSpec} (hlax : lex.LaxIsSound holds spec.conditions) {steps : List PlanStep}
    (hsteps : Plan.conjunction lex.isIndexed spec = some steps)
    (hindex : lex.IndexAnswers holds steps) :
    lex.Finds (lex.runSteps steps) fun w => spec.conditions.all (holds w) := by
  unfold Plan.conjunction at hsteps
  split at hsteps
  · cases hsteps
  · next normal hnormal =>
    have hshape := Plan.hasSteps_of_steps hsteps
    have hanswer := h.stepsAnswer hreads.phases hshape hindex
    have hfound := hanswer.foundBefore (p := fun _ => true) (fun _ _ => rfl)
    refine (finds_runSteps hshape.ne_nil hfound).congr fun w hw => ?_
    -- The steps hold the normal form's conditions; a word satisfies it and the spec alike.
    have hnormalise := SearchSpec.normalise_spec (hreads.reading w hw) spec (hlax w hw)
    rw [hnormal, Option.elim_some] at hnormalise
    rw [Bool.true_and, Plan.all_eq_of_mem_iff (holds w) hshape.mem_conditions, hreads.all_filter,
      hnormalise]

/-- **A conjunction that cannot be planned** holds of no word. -/
theorem ReadsSoundly.all_eq_false (hreads : lex.ReadsSoundly holds) {spec : SearchSpec}
    (hlax : lex.LaxIsSound holds spec.conditions)
    (hnone : Plan.conjunction lex.isIndexed spec = none) {w : Word}
    (hw : w ∈ lex.vocabulary.words) : spec.conditions.all (holds w) = false := by
  have hnormalise := SearchSpec.normalise_spec (hreads.reading w hw) spec (hlax w hw)
  unfold Plan.conjunction at hnone
  split at hnone
  · -- The conditions contradict one another.
    next hnormal =>
    rw [hnormal] at hnormalise
    exact hnormalise.symm
  · -- A condition needs an index, and there is none.
    next normal hnormal =>
    obtain ⟨hunindexed, c, hc, hphase⟩ := Plan.exists_of_steps_eq_none hnone
    rw [hunindexed] at hphase
    rw [hnormal, Option.elim_some] at hnormalise
    rw [← hnormalise, ← hreads.all_filter]
    exact List.all_eq_false.mpr ⟨c, hc, by simp [hreads.phases.missing hunindexed w c hphase]⟩

/-! ## §4 Choices -/

/-- **United words** are in order and are not repeated, whatever their case. -/
theorem ascending_unite (words : List Word) : Word.Ascending ((unite words).map Word.upper) := by
  have hsorted : (words.mergeSort fun v w => Word.le v.upper w.upper).Pairwise
      fun v w => (Word.order v.upper w.upper).isLE = true :=
    pairwise_mergeSort_on Word.upper words
  exact List.pairwise_map.mpr (pairwise_dropRepeats Word.upper hsorted)

theorem mem_map_upper_unite (words : List Word) (w : Word) :
    w ∈ (unite words).map Word.upper ↔ w ∈ words.map Word.upper := by
  rw [unite, mem_map_dropRepeats]
  simp [List.mem_mergeSort]

/-- What the index must answer, in all branches of a plan. -/
def PlanAnswers (lex : Lexicon) (holds : Word → Condition → Bool) (plan : Plan) : Prop :=
  ∀ steps ∈ plan.branches, lex.IndexAnswers holds steps

/-- **A choice** finds the words of which one alternative and all lists hold. -/
theorem IsSound.finds_alternatives (h : lex.IsSound) (hreads : lex.ReadsSoundly holds)
    {spec : SearchSpec}
    (hindex : lex.PlanAnswers holds (Plan.alternatives lex.isIndexed spec)) :
    lex.Finds
      (unite ((Plan.alternatives lex.isIndexed spec).branches.flatMap lex.runSteps)) fun w =>
        spec.conditions.any (fun c => Plan.isAlternative c && holds w c) &&
          spec.conditions.all fun c => !c.isList || holds w c := by
  let lists := spec.conditions.filter Condition.isList
  have hbranches := Plan.branches_alternatives lex.isIndexed spec
  have hlax (c : Condition) : lex.LaxIsSound holds (SearchSpec.all (c :: lists)).conditions := by
    -- A branch has no lax range but, perhaps, its alternative.
    refine fun w _ => .inr ?_
    have hlists : lists.countP Condition.isLax = 0 := by
      rw [List.countP_eq_zero]
      intro d hd hlax
      have hlist := (List.mem_filter.mp hd).2
      cases d <;> simp [Condition.isLax, Condition.isList] at hlax hlist
    simp only [SearchSpec.all, List.countP_cons, hlists]
    split <;> omega
  have hfound {c : Condition} (hc : c ∈ spec.conditions.filter Plan.isAlternative)
      {steps : List PlanStep}
      (hsteps : Plan.conjunction lex.isIndexed (SearchSpec.all (c :: lists)) = some steps) :
      lex.Finds (lex.runSteps steps) fun w => (c :: lists).all (holds w) :=
    h.finds_conjunction hreads (hlax c) hsteps
      (hindex steps (hbranches ▸ List.mem_filterMap.mpr ⟨c, hc, hsteps⟩))
  have hlists (w : Word) : lists.all (holds w) =
      spec.conditions.all fun c => !c.isList || holds w c := by
    simp only [lists, List.all_filter]
  -- Both sides are in order and without repeats, so it is enough that they have the same words.
  refine (ascending_unite _).eq_of_mem_iff (h.vocabulary.forward.sorted.ascending_words.filter _)
    fun w => ?_
  rw [mem_map_upper_unite, hbranches, List.map_flatMap, List.mem_flatMap, List.mem_filter,
    Bool.and_eq_true, List.any_eq_true, ← hlists]
  constructor
  · rintro ⟨steps, hmem, hw⟩
    obtain ⟨c, hc, hsteps⟩ := List.mem_filterMap.mp hmem
    rw [hfound hc hsteps, List.mem_filter, List.all_cons, Bool.and_eq_true] at hw
    obtain ⟨hw, hholds, hall⟩ := hw
    obtain ⟨hmem, halternative⟩ := List.mem_filter.mp hc
    exact ⟨hw, ⟨c, hmem, by simp [halternative, hholds]⟩, hall⟩
  · rintro ⟨hw, ⟨c, hmem, hc⟩, hall⟩
    obtain ⟨halternative, hholds⟩ := Bool.and_eq_true_iff.mp hc
    have hc := List.mem_filter.mpr ⟨hmem, halternative⟩
    have hboth : (c :: lists).all (holds w) = true := by simp [hholds, hall]
    cases hsteps : Plan.conjunction lex.isIndexed (SearchSpec.all (c :: lists)) with
    | none =>
      have hfalse := hreads.all_eq_false (hlax c) hsteps hw
      rw [SearchSpec.all, hboth] at hfalse
      cases hfalse
    | some steps =>
      refine ⟨steps, List.mem_filterMap.mpr ⟨c, hc, hsteps⟩, ?_⟩
      rw [hfound hc hsteps]
      exact List.mem_filter.mpr ⟨hw, hboth⟩

/-- The words of a result that the windows of a specification leave. -/
def windowed (lex : Lexicon) (spec : SearchSpec) (words : List Word) : List Word :=
  (RankWindow.ofConditions spec.conditions).elim words fun window => window.keep lex.bag words

@[simp] theorem windowed_nil (spec : SearchSpec) : lex.windowed spec [] = [] := by
  unfold windowed
  cases RankWindow.ofConditions spec.conditions <;> simp [RankWindow.keep]

/-- Windows look at ranks, and these do not depend on the case of a word. -/
theorem Finds.map_upper_windowed {found : List Word} {p : Word → Bool} (h : lex.Finds found p)
    (spec : SearchSpec) :
    (lex.windowed spec found).map Word.upper =
      lex.windowed spec (lex.vocabulary.words.filter p) := by
  have hfound : found.map Word.upper = lex.vocabulary.words.filter p := h
  unfold windowed
  cases RankWindow.ofConditions spec.conditions with
  | none => exact hfound
  | some window => rw [Option.elim_some, Option.elim_some, ← RankWindow.keep_map_upper, hfound]

/-- A specification without alternatives has only lists and windows. -/
theorem laxIsSound_of_any_eq_false {conditions : List Condition}
    (hnone : conditions.any Plan.isAlternative = false) : lex.LaxIsSound holds conditions := by
  have hcount : conditions.countP Condition.isLax = 0 := by
    rw [List.countP_eq_zero]
    intro c hc hlax
    have halternative := List.any_eq_false.mp hnone c hc
    cases c <;>
      simp [Condition.isLax, Plan.isAlternative, Condition.isList, Condition.isWindow]
        at hlax halternative
  intro w _
  right
  omega

/-- **A search finds the words of which its specification holds**, or those of them in its windows,
if every phase answers its conditions. -/
theorem IsSound.find_eq (h : lex.IsSound) (hreads : lex.ReadsSoundly holds) {spec : SearchSpec}
    (hlax : spec.conjunction = true → lex.LaxIsSound holds spec.conditions)
    (hindex : lex.PlanAnswers holds (Plan.ofSpec lex.isIndexed spec)) :
    lex.find spec true =
      lex.windowed spec (lex.vocabulary.words.filter fun w => spec.holdsBy (holds w)) := by
  have hfind {found : List Word} {p : Word → Bool} (hfound : lex.Finds found p) :
      (lex.windowed spec found).map Word.upper =
        lex.windowed spec (lex.vocabulary.words.filter p) :=
    hfound.map_upper_windowed spec
  unfold find
  rw [if_pos rfl]
  by_cases hchoice : (!spec.conjunction && spec.conditions.any Plan.isAlternative) = true
  · have hplan : Plan.ofSpec lex.isIndexed spec = Plan.alternatives lex.isIndexed spec := by
      rw [Plan.ofSpec, if_pos hchoice]
    rw [hplan] at hindex ⊢
    have hfound := h.finds_alternatives hreads hindex
    simp only [SearchSpec.holdsBy, hchoice, if_true]
    unfold Plan.alternatives at hfound ⊢
    simp only at hfound ⊢
    split
    · next hempty =>
      simp only [hempty, if_true] at hfound
      -- No branch can be planned: what `unite` makes of no words at all is no word.
      have hunited : unite (Plan.nothing.branches.flatMap lex.runSteps) = [] := by
        simp [unite, Plan.branches]
      rw [← hfound, hunited]
      exact (windowed_nil spec).symm
    · next hsome =>
      simp only [hsome] at hfound
      exact hfind hfound
  · -- A choice without alternatives is planned like a conjunction.
    have hlax : lex.LaxIsSound holds spec.conditions := by
      by_cases hconjunction : spec.conjunction = true
      · exact hlax hconjunction
      · exact laxIsSound_of_any_eq_false (by simpa [hconjunction] using hchoice)
    simp only [SearchSpec.holdsBy, hchoice, if_false, Plan.ofSpec, Bool.false_eq_true] at hindex ⊢
    split at hindex
    · next hnone =>
      have hempty : lex.vocabulary.words.filter (fun w => spec.conditions.all (holds w)) = [] :=
        List.filter_eq_nil_iff.mpr fun w hw => by simp [hreads.all_eq_false hlax hnone hw]
      rw [hempty, windowed_nil]
      rfl
    · next steps hsteps =>
      exact hfind (h.finds_conjunction hreads hlax hsteps (hindex steps (by simp [Plan.branches])))

/-! ## §5 Without a store -/

/-- **Without a store, every phase answers** the reading that knows of no store. -/
theorem readsSoundly_reads (hstore : lex.store = none) : lex.ReadsSoundly lex.reads where
  phases := by
    have hindexed : lex.isIndexed = false := by simp [isIndexed, hstore]
    have hneeds {c : Condition} {phase : Phase} (hne : phase ≠ .index)
        (hc : c.phase lex.isIndexed = phase) : needsStore c = false := by
      rw [Bool.eq_false_iff, Ne, ← phase_eq_index_iff]
      rw [hindexed] at hc
      rw [hc]
      exact hne
    constructor
    · intro w c hc
      rw [reads, hneeds (by simp) hc, satisfies_of_phase_graph hc]
      simp
    · intro w r
      simp [reads, needsStore, satisfies]
    · intro w c hc
      rw [reads, hneeds (by simp) hc, fits_of_phase_wordwise hc]
      simp
    · intro _ w c hc
      rw [reads, phase_eq_index_iff.mp hc]
      rfl
  reading w _ := lex.soundReading_reads w
  window w range lax legacy := rfl

/-- A search tells what it finds. -/
theorem fst_search (lex : Lexicon) (spec : SearchSpec) (capitals : Bool) :
    (lex.search spec capitals).1 = lex.find spec capitals := by
  unfold search
  split
  · next hnone => exact hnone.symm
  · rfl

/-- Without a store, no plan asks the index. -/
theorem planAnswers_of_unindexed (hindexed : lex.isIndexed = false) (spec : SearchSpec) :
    lex.PlanAnswers holds (Plan.ofSpec lex.isIndexed spec) := by
  rintro _ hsteps before asked behind rfl
  have hasked : PlanStep.index asked ∈ before ++ .index asked :: behind := by simp
  rw [(Plan.comesFrom_of_index_mem hsteps hasked).1] at hindexed
  cases hindexed

/-- **A search without a store finds just the words of which the specification holds**, read word
by word, whatever the history of the lexicon. They come in strictly ascending order, each once;
windows of ranks, if there are any, are taken of this list. -/
theorem search_eq_filter_of_history {lex₀ : Lexicon} (hfresh : lex₀.IsFresh)
    (steps : List LexiconStep) (hstore : (lex₀.runHistory steps).store = none) (spec : SearchSpec) :
    ((lex₀.runHistory steps).search spec true).1 =
      (lex₀.runHistory steps).windowed spec
        ((lex₀.runHistory steps).vocabulary.words.filter fun w =>
          spec.holdsBy ((lex₀.runHistory steps).reads w)) ∧
    Word.Ascending (lex₀.runHistory steps).vocabulary.words := by
  have hsound := hfresh.isSound.runHistory steps
  have hindexed : (lex₀.runHistory steps).isIndexed = false := by simp [isIndexed, hstore]
  refine ⟨?_, hsound.vocabulary.forward.sorted.ascending_words⟩
  rw [fst_search]
  exact hsound.find_eq (readsSoundly_reads hstore)
    (fun _ w _ => .inl ((lex₀.runHistory steps).laxMeets_reads w))
    (planAnswers_of_unindexed hindexed spec)

/-- Settings for words of `A` and `T`, without tiles. -/
def twoLetters : Settings := { alphabet := "AT", tiles := "", values := "" }

/-- Of `AT` and `TA`, a search for `?T` finds the first. -/
theorem search_of_two_words :
    ∃ lex₀ : Lexicon, lex₀.IsFresh ∧
      (lex₀.runHistory [.importWords [[0x41, 0x54], [0x54, 0x41]]]).store = none ∧
      ((lex₀.runHistory [.importWords [[0x41, 0x54], [0x54, 0x41]]]).search
        ⟨[.pattern "?T" false, .length ⟨1, 2⟩], true⟩ true).1 = [[0x41, 0x54]] := by
  have hfresh : IsFresh _ := ⟨"", twoLetters, rfl, by decide⟩
  refine ⟨_, hfresh, rfl, ?_⟩
  rw [(search_eq_filter_of_history hfresh _ rfl _).1]
  decide +kernel

end Lexicon

end WordStudy
