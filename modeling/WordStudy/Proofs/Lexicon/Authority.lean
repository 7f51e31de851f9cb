import WordStudy.Proofs.Attributes.Rows
import WordStudy.Proofs.Lexicon.Search
import WordStudy.Proofs.Search.Places

/-!
# The vocabulary has the last word

A store may be stale, belong to another lexicon, lack rows, spell words in any case or fail. Nothing
of that can bring a word into an answer that is not in the vocabulary. So the store is taken here as
a **function without any law**: whatever it answers at every step of a plan, each step finds words
that the lexicon accepts, and choices, windows and capitals only choose among them.
-/

namespace WordStudy

namespace Lexicon

/-! ## §1 Plain words -/

/-- **The vocabulary is sound, and its words are plain**, whatever letters the alphabet has. -/
structure IsPlain (lex : Lexicon) : Prop where
  vocabulary : lex.vocabulary.IsSound
  plain : ∀ w ∈ lex.vocabulary.words, Word.IsPlain w

/-- **Any lexicon that was created has plain words**, after any history. -/
theorem isPlain_runHistory {name : String} {settings : Settings} {lex₀ : Lexicon}
    (hcreate : create name settings = .ok lex₀) (steps : List LexiconStep) :
    (lex₀.runHistory steps).IsPlain := by
  have hempty := vocabulary_of_create hcreate
  have hfirst : lex₀.vocabulary.IsSound := hempty ▸ Vocabulary.isSound_empty
  have hnone : ∀ w ∈ lex₀.vocabulary.words, w.IsPlain := hempty ▸ List.forall_mem_nil _
  obtain ⟨hsound, -, hplain⟩ := words_runHistory (fun v w hw => (Word.isPlain_of_spelledIn hw).1)
    (fun w hw => hw.isPlain) hfirst hnone steps
  exact ⟨hsound, hplain⟩

/-- All words are accepted. -/
def AcceptsAll (lex : Lexicon) (words : List Word) : Prop := ∀ w ∈ words, lex.accepts w = true

variable {lex : Lexicon}

/-- **A word that is found with marks is in the vocabulary**, and its marks do not matter. -/
theorem IsPlain.acceptsAll_searchMarked (h : lex.IsPlain) (conditions : List Condition) :
    lex.AcceptsAll (lex.vocabulary.searchMarked conditions) := by
  intro w hw
  unfold Vocabulary.searchMarked at hw
  split at hw
  · next q hq =>
    obtain ⟨v, hv, rfl⟩ := List.mem_map.mp hw
    rw [h.vocabulary.run_eq_filter] at hv
    have hmem := (List.mem_filter.mp hv).1
    show lex.vocabulary.contains (q.markWildcards v) = true
    rw [h.vocabulary.contains_iff, q.upper_markWildcards (h.plain v hmem)]
    exact hmem
  · cases hw

/-! ## §2 Any answers -/

/-- **What a store may answer**: some words, in any case, or a fault, for predicates on rows and the
words found before. -/
abbrev StoreAnswers := List Predicate → Option (List Word) → Except StoreFault (List Word)

/-- The words that the index finds, if the store gives any answers. -/
def searchIndexBy (lex : Lexicon) (answers : Option StoreAnswers) (conditions : List Condition)
    (found : Option (List Word)) : List Word :=
  let rows := answers.elim [] fun answer =>
    match answer (RowQuery.ofConditions conditions) found with
    | .ok words => words
    | .error _ => []
  match found with
  | none => rows.filter lex.accepts
  | some words =>
    let spelling : Std.TreeMap Word Word :=
      words.foldl (fun spelling w => spelling.insert w.upper w) ∅
    rows.filterMap fun w => spelling[w.upper]?

/-- The words that a step finds, if the store gives any answers. -/
def runStepBy (lex : Lexicon) (answers : Option StoreAnswers) (found : Option (List Word)) :
    PlanStep → List Word
  | .graph conditions => lex.vocabulary.searchMarked conditions
  | .index conditions => lex.searchIndexBy answers conditions found
  | .wordwise conditions =>
    (found.getD []).filter fun w => conditions.all (lex.satisfies w.upper)

def runStepsBy (lex : Lexicon) (answers : Option StoreAnswers) (steps : List PlanStep) : List Word :=
  (steps.foldl (fun found step => some (lex.runStepBy answers found step)) none).getD []

def runPlanBy (lex : Lexicon) (answers : Option StoreAnswers) (plan : Plan) : List Word :=
  let found :=
    match plan with
    | .nothing => []
    | .all steps _ => lex.runStepsBy answers steps
    | .any branches _ => unite (branches.flatMap (lex.runStepsBy answers))
  plan.window?.elim found fun window => window.keep lex.bag found

/-- **The words that a search finds**, if the store gives any answers. -/
def findBy (lex : Lexicon) (answers : Option StoreAnswers) (spec : SearchSpec) (capitals : Bool) :
    List Word :=
  let found := lex.runPlanBy answers (Plan.ofSpec answers.isSome spec)
  if capitals then found.map Word.upper else found

/-- **A search asks the store for its answers** and nothing else. -/
theorem find_eq_findBy (lex : Lexicon) (spec : SearchSpec) (capitals : Bool) :
    lex.find spec capitals = lex.findBy (lex.store.map AttributeStore.find) spec capitals := by
  obtain ⟨name, alphabet, length, bag, classifier, vocabulary, counts, stems, definitions, store,
    cache⟩ := lex
  cases store <;> rfl

/-! ## §3 What is found -/

/-- **The index finds accepted words only**: it keeps what the vocabulary has, or chooses among the
words found before. -/
theorem acceptsAll_searchIndexBy (answers : Option StoreAnswers) (conditions : List Condition)
    {found : Option (List Word)} (hfound : lex.AcceptsAll (found.getD [])) :
    lex.AcceptsAll (lex.searchIndexBy answers conditions found) := by
  intro w hw
  unfold searchIndexBy at hw
  cases found with
  | none => exact (List.mem_filter.mp hw).2
  | some words =>
    -- What is kept under a spelling is one of the words found before.
    obtain ⟨row, -, hrow⟩ := List.mem_filterMap.mp hw
    have hspelled : ∀ e ∈ words.map fun w => (w.upper, w), lex.accepts e.2 = true := by
      intro e he
      obtain ⟨v, hv, rfl⟩ := List.mem_map.mp he
      exact hfound v hv
    have hnone : ∀ k w : Word, (∅ : Std.TreeMap Word Word)[k]? = some w → lex.accepts w = true := by
      simp
    apply forall_getElem?_foldl_insert _ hnone hspelled row.upper
    rw [List.foldl_map]
    exact hrow

theorem IsPlain.acceptsAll_runStepBy (h : lex.IsPlain) (answers : Option StoreAnswers)
    {found : Option (List Word)} (hfound : lex.AcceptsAll (found.getD [])) (step : PlanStep) :
    lex.AcceptsAll (lex.runStepBy answers found step) := by
  cases step with
  | graph conditions => exact h.acceptsAll_searchMarked conditions
  | index conditions => exact acceptsAll_searchIndexBy answers conditions hfound
  | wordwise conditions => exact fun w hw => hfound w (List.mem_filter.mp hw).1

/-- **Steps one after the other** find accepted words only. -/
theorem IsPlain.acceptsAll_runStepsBy (h : lex.IsPlain) (answers : Option StoreAnswers)
    (steps : List PlanStep) : lex.AcceptsAll (lex.runStepsBy answers steps) := by
  unfold runStepsBy
  apply List.foldlRecOn (motive := fun found : Option (List Word) => lex.AcceptsAll (found.getD []))
  · exact fun w hw => absurd hw List.not_mem_nil
  · exact fun found hfound step _ => h.acceptsAll_runStepBy answers hfound step

theorem AcceptsAll.unite {words : List Word} (h : lex.AcceptsAll words) :
    lex.AcceptsAll (unite words) := by
  intro w hw
  apply h
  exact List.mem_mergeSort.mp ((dropRepeats_sublist Word.upper _).subset hw)

/-- **A plan finds accepted words only**: branches are united and windows keep some of the words. -/
theorem IsPlain.acceptsAll_runPlanBy (h : lex.IsPlain) (answers : Option StoreAnswers)
    (plan : Plan) : lex.AcceptsAll (lex.runPlanBy answers plan) := by
  -- A window takes words away, and adds none.
  have hwindow : ∀ (window : Option RankWindow) (words : List Word), lex.AcceptsAll words →
      lex.AcceptsAll (window.elim words fun window => window.keep lex.bag words) := by
    intro window words hwords
    cases window with
    | none => exact hwords
    | some window => exact fun w hw => hwords w (RankWindow.mem_of_mem_keep hw)
  cases plan with
  | nothing => exact hwindow none [] fun w hw => absurd hw List.not_mem_nil
  | all steps window => exact hwindow window _ (h.acceptsAll_runStepsBy answers steps)
  | any branches window =>
    apply hwindow window
    apply AcceptsAll.unite
    intro w hw
    obtain ⟨steps, -, hsteps⟩ := List.mem_flatMap.mp hw
    exact h.acceptsAll_runStepsBy answers steps w hsteps

/-- Words in upper case are accepted just as they are in any other. -/
theorem AcceptsAll.map_upper {words : List Word} (h : lex.AcceptsAll words) :
    lex.AcceptsAll (words.map Word.upper) := by
  intro w hw
  obtain ⟨v, hv, rfl⟩ := List.mem_map.mp hw
  rw [lex.accepts_congr (Word.upper_upper v)]
  exact h v hv

theorem IsPlain.acceptsAll_findBy (h : lex.IsPlain) (answers : Option StoreAnswers)
    (spec : SearchSpec) (capitals : Bool) : lex.AcceptsAll (lex.findBy answers spec capitals) := by
  have hplan := h.acceptsAll_runPlanBy answers (Plan.ofSpec answers.isSome spec)
  unfold findBy
  cases capitals with
  | true => exact hplan.map_upper
  | false => exact hplan

/-- **The vocabulary has the last word.** Whatever letters the alphabet has and whatever was done to
the lexicon, a search finds only words that the lexicon accepts: with the store that is attached, if
there is one, with any other store in its place, and with any answers at all in place of those of a
store. -/
theorem accepts_of_mem_search {name : String} {settings : Settings} {lex₀ : Lexicon}
    (hcreate : create name settings = .ok lex₀) (steps : List LexiconStep) (spec : SearchSpec)
    (capitals : Bool) :
    (∀ w ∈ ((lex₀.runHistory steps).search spec capitals).1,
      (lex₀.runHistory steps).accepts w = true) ∧
    (∀ store, ∀ w ∈ (((lex₀.runHistory steps).attach store).search spec capitals).1,
      (lex₀.runHistory steps).accepts w = true) ∧
    (∀ answers, ∀ w ∈ (lex₀.runHistory steps).findBy (some answers) spec capitals,
      (lex₀.runHistory steps).accepts w = true) := by
  have hplain := isPlain_runHistory hcreate steps
  refine ⟨?_, ?_, ?_⟩
  · rw [fst_search, find_eq_findBy]
    exact hplain.acceptsAll_findBy _ spec capitals
  · intro store
    rw [fst_search, find_eq_findBy]
    -- The store changes what is answered and not what is accepted.
    have hattached : ((lex₀.runHistory steps).attach store).IsPlain := ⟨hplain.1, hplain.2⟩
    exact hattached.acceptsAll_findBy _ spec capitals
  · exact fun answers => hplain.acceptsAll_findBy (some answers) spec capitals

/-- A store that answers `cat`, `DOG` and `AT` to everything brings only the last one into a search
in a lexicon of `AT`, and in its own spelling. -/
theorem accepts_of_foreign_answers :
    ∃ lex₀ : Lexicon, create "" twoLetters = .ok lex₀ ∧
      (lex₀.runHistory [.importWords [[0x41, 0x54]]]).findBy
        (some fun _ _ => .ok [[0x63, 0x61, 0x74], [0x44, 0x4F, 0x47], [0x61, 0x54]])
        ⟨[.anagrams ⟨1, 1⟩], true⟩ false = [[0x61, 0x54]] ∧
      (lex₀.runHistory [.importWords [[0x41, 0x54]]]).accepts [0x61, 0x54] = true := by
  have hcreate : create "" twoLetters = .ok _ := rfl
  refine ⟨_, hcreate, by decide +kernel, ?_⟩
  obtain ⟨-, -, hanswers⟩ := accepts_of_mem_search hcreate [.importWords [[0x41, 0x54]]]
    ⟨[.anagrams ⟨1, 1⟩], true⟩ false
  exact hanswers (fun _ _ => .ok [[0x63, 0x61, 0x74], [0x44, 0x4F, 0x47], [0x61, 0x54]]) _
    (by decide +kernel)

end Lexicon

end WordStudy
