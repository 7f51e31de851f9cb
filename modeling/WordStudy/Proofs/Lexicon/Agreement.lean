import WordStudy.Proofs.Lexicon.Counts
import WordStudy.Proofs.Lexicon.Search
import WordStudy.Proofs.Lexicon.Stems

/-!
# Lexicons that agree

Two lexicons **agree** if they have the same settings, the same words and stems with the same
alphagrams. How the words came there does not matter: what is imported into both keeps them agreed,
and without a store every search finds the same in both. Graphs, the backward graph that one of them
may have, stores and caches are left out of account.
-/

namespace WordStudy

/-- The operation imports words or stems, asks, or gives up the store. It neither imports an image
nor attaches a store. -/
def LexiconStep.addsOrAsks : LexiconStep → Bool
  | .importImage .. => false
  | .attach _ => false
  | _ => true

theorem LexiconStep.isTextual_of_addsOrAsks {step : LexiconStep} (h : step.addsOrAsks = true) :
    step.isTextual = true := by
  cases step <;> first | rfl | cases h

namespace Vocabulary

/-- **Sound vocabularies of the same words** contain the same. -/
theorem IsSound.contains_eq_of_words {v u : Vocabulary} (hv : v.IsSound) (hu : u.IsSound)
    (hwords : v.words = u.words) (w : Word) : v.contains w = u.contains w :=
  hv.forward.contains_congr hu.forward (iff_of_eq (congrArg (w.upper ∈ ·) hwords))

/-- The words found in them have the same marks. -/
theorem IsSound.searchMarked_eq_of_words {v u : Vocabulary} (hv : v.IsSound) (hu : u.IsSound)
    (hwords : v.words = u.words) (conditions : List Condition) :
    v.searchMarked conditions = u.searchMarked conditions := by
  unfold searchMarked
  split
  · rw [hv.run_eq_filter, hu.run_eq_filter, hwords]
  · rfl

end Vocabulary

/-- **Membership of a set** depends on the words contained and the alphagrams of stems. -/
theorem Classifier.member_congr (c : Classifier) {v v' : Vocabulary} {stems stems' : StemIndex}
    (hcontains : ∀ w, v.contains w = v'.contains w)
    (hstems : ∀ length a, stems.contains length a = stems'.contains length a) (set : StudySet)
    (w : Word) : c.member v stems set w = c.member v' stems' set w := by
  have hfront (u : Word) : v.isFrontHook u = v'.isFrontHook u := by
    rw [Vocabulary.isFrontHook, hcontains]
    rfl
  have hback (u : Word) : v.isBackHook u = v'.isBackHook u := by
    rw [Vocabulary.isBackHook, hcontains]
    rfl
  have hone (u : Word) : isTypeOne stems u = isTypeOne stems' u := by
    rw [isTypeOne, StemIndex.oneShort_congr hstems, StemIndex.twoShort_congr hstems]
    rfl
  unfold member isTypeThree isTypeTwo
  simp only [hfront, hback, hone, StemIndex.oneShort_congr hstems]

namespace Lexicon

/-! ## §1 Agreement -/

/-- **The lexicons have the same settings, words and stems**, as far as a search can tell. -/
structure Agrees (lex other : Lexicon) : Prop where
  alphabet : lex.alphabet = other.alphabet
  maxWordLength : lex.maxWordLength = other.maxWordLength
  bag : lex.bag = other.bag
  classifier : lex.classifier = other.classifier
  stems : ∀ length a, lex.stems.contains length a = other.stems.contains length a
  words : lex.vocabulary.words = other.vocabulary.words
  sound : lex.vocabulary.IsSound
  sound' : other.vocabulary.IsSound

variable {lex other : Lexicon}

theorem ignoresStore_agrees_left (other : Lexicon) : IgnoresStore (Agrees · other) :=
  fun _ h _ _ => { h with }

theorem ignoresStore_agrees_right (lex : Lexicon) : IgnoresStore (Agrees lex) :=
  fun _ h _ _ => { h with }

theorem Agrees.addWord (h : lex.Agrees other) (w : Word) (definition definition' : Option String) :
    (lex.addWord w definition).Agrees (other.addWord w definition') := by
  have hsound := h.sound.add w
  have hsound' := h.sound'.add w
  refine { h with words := ?_, sound := hsound, sound' := hsound' }
  apply hsound.forward.sorted.ascending_words.eq_of_mem_iff hsound'.forward.sorted.ascending_words
  intro u
  show u ∈ (lex.vocabulary.add w).1.words ↔ u ∈ (other.vocabulary.add w).1.words
  rw [h.sound.mem_words_add, h.sound'.mem_words_add, h.words]

/-- What one of them admits, the other one admits as well. -/
theorem Agrees.admits_eq (h : lex.Agrees other) : lex.admits = other.admits := by
  funext entry
  rw [admits, admits, h.alphabet, h.maxWordLength]

theorem Agrees.merge (h : lex.Agrees other) :
    Agrees { lex with vocabulary := lex.vocabulary.merge }
      { other with vocabulary := other.vocabulary.merge } := by
  refine { h with words := ?_, sound := h.sound.merge, sound' := h.sound'.merge }
  show lex.vocabulary.merge.words = other.vocabulary.merge.words
  rw [h.sound.words_merge, h.sound'.words_merge, h.words]

/-- **A list imported into both** keeps them agreed. -/
theorem Agrees.importEntries (h : lex.Agrees other) (entries : List WordEntry)
    (definitions : Bool) :
    (lex.importEntries entries definitions).1.Agrees
      (other.importEntries entries definitions).1 := by
  unfold Lexicon.importEntries
  apply Agrees.merge
  -- The entries are read along with counts, which do not matter.
  apply List.foldl_rel (r := fun read read' : Lexicon × Nat => read.1.Agrees read'.1)
  · exact h
  · intro entry _ read read' hread
    dsimp only
    rw [hread.admits_eq]
    split
    · exact hread
    · exact hread.addWord _ _ _

theorem Agrees.importStems (h : lex.Agrees other) (stems : List Word) :
    (lex.importStems stems).1.Agrees (other.importStems stems).1 := by
  refine { h with stems := ?_ }
  intro length a
  show (lex.stems.add stems).1.contains length a = (other.stems.add stems).1.contains length a
  rw [StemIndex.contains_add, StemIndex.contains_add, h.stems]

/-- **One operation on both** keeps them agreed, if it imports no image. -/
theorem Agrees.perform (h : lex.Agrees other) {step : LexiconStep}
    (htextual : step.isTextual = true) : (lex.perform step).Agrees (other.perform step) := by
  -- The store is asked by a search and by a row alone, and only their caches may differ.
  cases step with
  | importEntries entries definitions => exact h.importEntries entries definitions
  | importWords words => exact h.importEntries _ _
  | importImage => cases htextual
  | importStems stems => exact h.importStems stems
  | attach => exact { h with }
  | detach => exact { h with }
  | search spec capitals =>
    have hleft := (ignoresStore_agrees_left other).search h spec capitals
    exact (ignoresStore_agrees_right _).search hleft spec capitals
  | row w =>
    have hleft := (ignoresStore_agrees_left other).row h w
    exact (ignoresStore_agrees_right _).row hleft w
  | refreshCache => exact { h with }

theorem Agrees.runHistory (h : lex.Agrees other) {steps : List LexiconStep}
    (htextual : ∀ step ∈ steps, step.isTextual = true) :
    (lex.runHistory steps).Agrees (other.runHistory steps) := by
  induction steps generalizing lex other with
  | nil => exact h
  | cons step steps ih =>
    exact ih (h.perform (htextual step (by simp))) fun step hstep => htextual step (by simp [hstep])

/-! ## §2 Searches -/

theorem Agrees.accepts_eq (h : lex.Agrees other) (w : Word) : lex.accepts w = other.accepts w :=
  h.sound.contains_eq_of_words h.sound' h.words w

theorem Agrees.member_eq (h : lex.Agrees other) (set : StudySet) (w : Word) :
    lex.member set w = other.member set w := by
  have hmember : other.classifier.member lex.vocabulary lex.stems set =
      other.classifier.member other.vocabulary other.stems set :=
    funext (other.classifier.member_congr h.accepts_eq h.stems set)
  unfold member
  rw [h.alphabet, h.classifier, hmember]

theorem Agrees.satisfies_eq (h : lex.Agrees other) : lex.satisfies = other.satisfies := by
  funext w c
  cases c <;> simp only [satisfies, h.accepts_eq, h.member_eq]

/-- **A step finds the same in both**, if neither has a store. -/
theorem Agrees.runStep_eq (h : lex.Agrees other) (hstore : lex.store = none)
    (hstore' : other.store = none) (found : Option (List Word)) (step : PlanStep) :
    lex.runStep found step = other.runStep found step := by
  cases step with
  | graph conditions => exact h.sound.searchMarked_eq_of_words h.sound' h.words conditions
  | index conditions =>
    -- Without a store, there are no rows to find.
    cases found <;> simp [runStep, searchIndex, findRows, hstore, hstore']
  | wordwise conditions => simp only [runStep, h.satisfies_eq]

/-- **A search without a store finds the same in both.** -/
theorem Agrees.search_eq (h : lex.Agrees other) (hstore : lex.store = none)
    (hstore' : other.store = none) (spec : SearchSpec) (capitals : Bool) :
    (lex.search spec capitals).1 = (other.search spec capitals).1 := by
  have hsteps : lex.runSteps = other.runSteps := by
    funext steps
    simp only [runSteps, h.runStep_eq hstore hstore']
  rw [fst_search, fst_search]
  unfold find runPlan isIndexed
  rw [hsteps, hstore, hstore', h.bag]

/-- The counts of anagrams are the same in both, if they are those of the words. -/
theorem Agrees.count_eq (h : lex.Agrees other) (hcounts : lex.CountsItsWords)
    (hcounts' : other.CountsItsWords) (w : Word) :
    lex.anagramCounts.count w = other.anagramCounts.count w := by
  rw [hcounts.count_eq, hcounts'.count_eq, h.words]

end Lexicon

end WordStudy
