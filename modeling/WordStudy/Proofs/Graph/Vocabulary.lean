import WordStudy.Graph.Vocabulary
import WordStudy.Proofs.Graph.History
import WordStudy.Proofs.Graph.Query

/-!
# Histories of a vocabulary

A vocabulary changes by words added and by images loaded, which may be refused. Throughout, its
graphs are sound, and the backward graph, if there is one, has **just the reversed words** of the
forward one. So it does not matter which of them a query walks along.
-/

namespace WordStudy

/-- One change of a vocabulary. -/
inductive VocabularyStep where
  | add (w : Word)
  | importWords (words : List Word)
  | merge
  /-- Load an image; one that is refused changes nothing. -/
  | load (bytes : List UInt8) (backwards : Bool) (expected : Option (BitVec 16))
  deriving DecidableEq, Repr

namespace Vocabulary

/-! ## §1 Soundness -/

/-- **The graphs are sound, and one mirrors the other.** -/
structure IsSound (v : Vocabulary) : Prop where
  forward : v.forward.IsSound
  backward : ∀ g, v.backward = some g → g.IsSound
  mirrored : ∀ g, v.backward = some g → ∀ w, g.contains w.reverse = v.forward.contains w

theorem IsSound.of_forward {g : WordGraph} (h : g.IsSound) : IsSound ⟨g, none⟩ where
  forward := h
  backward := by simp
  mirrored := by simp

theorem isSound_empty : empty.IsSound := .of_forward WordGraph.isSound_empty

/-- A sound vocabulary contains the words that it lists, in any case. -/
theorem IsSound.contains_iff {v : Vocabulary} (h : v.IsSound) (w : Word) :
    v.contains w = true ↔ w.upper ∈ v.words := h.forward.contains_iff w.upper

/-- **A word added** is added to both graphs. -/
theorem IsSound.add {v : Vocabulary} (h : v.IsSound) (w : Word) : (v.add w).1.IsSound := by
  unfold Vocabulary.add
  split
  · next forward hinsert =>
    have hforward : forward = (v.forward.insert w.upper).1 := by rw [hinsert]
    subst hforward
    refine ⟨h.forward.insert _, ?_, ?_⟩
    · intro g hg
      obtain ⟨g₀, hg₀, rfl⟩ := Option.map_eq_some_iff.mp hg
      exact (h.backward g₀ hg₀).insert _
    · intro g hg u
      obtain ⟨g₀, hg₀, rfl⟩ := Option.map_eq_some_iff.mp hg
      -- The same word, turned, is new to both graphs or to none.
      have hold := h.mirrored g₀ hg₀ u
      rw [Bool.eq_iff_iff, (h.backward g₀ hg₀).contains_insert, h.forward.contains_insert, hold]
      simp [List.reverse_inj]
  · exact h

theorem IsSound.merge {v : Vocabulary} (h : v.IsSound) : v.merge.IsSound where
  forward := h.forward.merge
  backward := by
    intro g hg
    obtain ⟨g₀, hg₀, rfl⟩ := Option.map_eq_some_iff.mp hg
    exact (h.backward g₀ hg₀).merge
  mirrored := by
    intro g hg w
    obtain ⟨g₀, hg₀, rfl⟩ := Option.map_eq_some_iff.mp hg
    rw [(h.backward g₀ hg₀).contains_merge, h.mirrored g₀ hg₀ w]
    exact (h.forward.contains_merge w).symm

/-- **What a word added changes** about the words listed. -/
theorem IsSound.mem_words_add {v : Vocabulary} (h : v.IsSound) (w u : Word) :
    u ∈ (v.add w).1.words ↔ (u = w.upper ∧ w.upper ≠ []) ∨ u ∈ v.words := by
  have hinsert := WordGraph.mem_words_insert h.forward.sorted w.upper u
  unfold Vocabulary.add
  split
  · next forward heq =>
    rw [heq] at hinsert
    exact hinsert
  · -- The word was there already, or it is empty.
    next forward heq =>
    have hnot : ¬(w.upper ≠ [] ∧ v.forward.contains w.upper = false) := by
      rw [← WordGraph.insert_isNew, heq]
      simp
    constructor
    · exact .inr
    · rintro (⟨rfl, hne⟩ | hmem)
      · have hcontains : v.forward.contains w.upper = true := by
          by_contra hno
          exact hnot ⟨hne, by simpa using hno⟩
        exact (h.forward.contains_iff _).mp hcontains
      · exact hmem

theorem IsSound.words_merge {v : Vocabulary} (h : v.IsSound) : v.merge.words = v.words :=
  WordGraph.words_merge h.forward.sharesSoundly

/-- Words added one after the other keep what each of them keeps. -/
theorem addAll_induction {p : Vocabulary → Prop} (words : List Word) {v : Vocabulary} (h : p v)
    (hstep : ∀ v, p v → ∀ w ∈ words, p (v.add w).1) : p (v.addAll words).1 := by
  unfold addAll
  -- The words are added along with a count, which does not matter.
  apply List.foldlRecOn (motive := fun added : Vocabulary × Nat => p added.1)
  · exact h
  · intro added hadded w hw
    have hnext := hstep added.1 hadded w hw
    dsimp only
    split
    · next heq => rwa [heq] at hnext
    · next heq => rwa [heq] at hnext

theorem IsSound.importWords {v : Vocabulary} (h : v.IsSound) (words : List Word) :
    (v.importWords words).1.IsSound :=
  (addAll_induction words h fun _ hv w _ => hv.add w).merge

/-! ## §2 Images -/

/-- Turning a graph is a run of insertions and a merge. -/
theorem turned_eq_run (g : WordGraph) :
    turned g =
      (WordGraph.empty.run (g.words.map fun w => GraphStep.insert w.reverse)).merge := by
  simp only [turned, WordGraph.run, List.foldl_map]
  rfl

theorem isSound_turned (g : WordGraph) : (turned g).IsSound := by
  rw [turned_eq_run]
  exact (WordGraph.isSound_empty.run _).merge

/-- **The turned graph** contains the words that are contained when spelled backwards. -/
theorem contains_turned {g : WordGraph} (h : g.IsSound) (w : Word) :
    (turned g).contains w = g.contains w.reverse := by
  have hrun := WordGraph.isSound_empty.run (g.words.map fun w => GraphStep.insert w.reverse)
  rw [turned_eq_run, hrun.contains_merge, Bool.eq_iff_iff,
    WordGraph.isSound_empty.contains_run, h.contains_iff]
  constructor
  -- What the turned graph contains was inserted, for it began without words.
  · rintro (⟨_, hmem⟩ | hempty)
    · obtain ⟨u, hu, heq⟩ := List.mem_map.mp hmem
      cases heq
      simpa using hu
    · rw [WordGraph.isSound_empty.contains_iff] at hempty
      exact absurd hempty List.not_mem_nil
  · intro hmem
    refine .inl ⟨?_, List.mem_map.mpr ⟨w.reverse, hmem, by simp⟩⟩
    rintro rfl
    exact Edges.nil_notMem_words _ (by simpa [WordGraph.words] using hmem)

/-- What is read of an image that is not refused. -/
theorem ofImage_eq_ok {bytes : List UInt8} {backwards : Bool} {expected : Option (BitVec 16)}
    {v : Vocabulary} (h : ofImage bytes backwards expected = .ok v) :
    ∃ g, Image.decode bytes = .ok g ∧
      v = if backwards then ⟨turned g, some g⟩ else ⟨g, none⟩ := by
  unfold ofImage at h
  split at h
  · cases h
  · cases hg : Image.decode bytes with
    | error fault => simp [hg, bind, Except.bind] at h
    | ok g =>
      refine ⟨g, rfl, ?_⟩
      simp only [hg, bind, Except.bind] at h
      split at h <;> cases h <;> simp_all

/-- **A vocabulary read from an image is sound**, whichever way its words are spelled. -/
theorem isSound_of_ofImage {bytes : List UInt8} {backwards : Bool} {expected : Option (BitVec 16)}
    {v : Vocabulary} (h : ofImage bytes backwards expected = .ok v) : v.IsSound := by
  obtain ⟨g, hg, rfl⟩ := ofImage_eq_ok h
  have hsound := WordGraph.isSound_of_decode hg
  cases backwards with
  | true =>
    -- The image is the backward graph, and the forward one is made of it.
    refine ⟨isSound_turned g, ?_, ?_⟩
    · intro g' hg'
      cases hg'
      exact hsound
    · intro g' hg' w
      cases hg'
      exact (contains_turned hsound w).symm
  | false => exact .of_forward hsound

/-- **An image has words of capital letters only.** -/
theorem inCapitals_of_ofImage {bytes : List UInt8} {backwards : Bool}
    {expected : Option (BitVec 16)} {v : Vocabulary}
    (h : ofImage bytes backwards expected = .ok v) {w : Word} (hw : w ∈ v.words) :
    w.InCapitals := by
  obtain ⟨g, hg, rfl⟩ := ofImage_eq_ok h
  have hread := Image.describes_of_decode hg
  have hsound := WordGraph.isSound_of_decode hg
  cases backwards with
  | true =>
    have hreverse : w.reverse ∈ g.words := by
      rw [← hsound.contains_iff, ← contains_turned hsound w, (isSound_turned g).contains_iff]
      exact hw
    intro b hb
    exact hread.inCapitals _ hreverse b (List.mem_reverse.mpr hb)
  | false => exact hread.inCapitals w hw

/-! ## §3 Histories -/

/-- The vocabulary of an image, or the one at hand if the image is refused. -/
def load (v : Vocabulary) (bytes : List UInt8) (backwards : Bool)
    (expected : Option (BitVec 16)) : Vocabulary :=
  match ofImage bytes backwards expected with
  | .ok loaded => loaded
  | .error _ => v

theorem IsSound.load {v : Vocabulary} (h : v.IsSound) (bytes : List UInt8) (backwards : Bool)
    (expected : Option (BitVec 16)) : (v.load bytes backwards expected).IsSound := by
  unfold Vocabulary.load
  split
  · next loaded hload => exact isSound_of_ofImage hload
  · exact h

/-- The vocabulary after one change. -/
def perform (v : Vocabulary) : VocabularyStep → Vocabulary
  | .add w => (v.add w).1
  | .importWords words => (v.importWords words).1
  | .merge => v.merge
  | .load bytes backwards expected => v.load bytes backwards expected

/-- The vocabulary after changes, the first one first. -/
def runSteps (v : Vocabulary) (steps : List VocabularyStep) : Vocabulary := steps.foldl perform v

theorem IsSound.perform {v : Vocabulary} (h : v.IsSound) (step : VocabularyStep) :
    (v.perform step).IsSound := by
  cases step with
  | add w => exact h.add w
  | importWords words => exact h.importWords words
  | merge => exact h.merge
  | load bytes backwards expected => exact h.load bytes backwards expected

/-- **Soundness holds throughout** any history. -/
theorem IsSound.runSteps {v : Vocabulary} (h : v.IsSound) (steps : List VocabularyStep) :
    (v.runSteps steps).IsSound := by
  induction steps generalizing v with
  | nil => exact h
  | cons step steps ih => exact ih (h.perform step)

/-! ## §4 Searching -/

/-- The words that answer a query that runs backwards. -/
theorem IsSound.sort_run_reversed {v : Vocabulary} (h : v.IsSound) {q : GraphQuery} {g : WordGraph}
    (hg : v.backward = some g) (hracks : q.racks = []) :
    Word.sort (((q.reversed.run g.root.edges).map List.reverse).filter q.allows) =
      v.words.filter q.answers := by
  -- The answers come in the order of the turned words, so they are sorted again.
  have hreversed : (q.reversed.run g.root.edges).Nodup := by
    rw [GraphQuery.run_eq_filter]
    exact (h.backward g hg).sorted.ascending_words.nodup.filter _
  have hnodup : (((q.reversed.run g.root.edges).map List.reverse).filter q.allows).Nodup :=
    (hreversed.map_on fun u _ w _ heq => List.reverse_injective heq).filter _
  refine (Word.ascending_sort hnodup).eq_of_mem_iff
    (h.forward.sorted.ascending_words.filter q.answers) fun w => ?_
  have hmirror : w.reverse ∈ g.root.edges.words ↔ w ∈ v.words := by
    rw [words, ← h.forward.contains_iff, ← h.mirrored g hg w, (h.backward g hg).contains_iff]
    rfl
  have hwants := GraphQuery.wants_reversed hracks w
  have hmem : w ∈ (q.reversed.run g.root.edges).map List.reverse ↔
      w ∈ v.words ∧ q.wants w = true := by
    rw [GraphQuery.run_eq_filter, ← hmirror, ← hwants]
    constructor
    · intro hw
      obtain ⟨u, hu, rfl⟩ := List.mem_map.mp hw
      simpa using List.mem_filter.mp hu
    · intro hw
      exact List.mem_map.mpr ⟨w.reverse, List.mem_filter.mpr hw, by simp⟩
  rw [Word.mem_sort, List.mem_filter, List.mem_filter, hmem]
  simp [GraphQuery.answers, and_assoc]

/-- **Which graph answers a query is never seen**: the answer is the words that the query asks for,
in the order in which they are listed. -/
theorem IsSound.run_eq_filter {v : Vocabulary} (h : v.IsSound) (q : GraphQuery) :
    v.run q = v.words.filter q.answers := by
  have hforward : (q.run v.forward.root.edges).filter q.allows = v.words.filter q.answers := by
    rw [GraphQuery.run_eq_filter, List.filter_filter]
    exact List.filter_congr fun w _ => Bool.and_comm _ _
  unfold run
  split
  · next g hg =>
    obtain ⟨hg, hprefers⟩ := Option.filter_eq_some_iff.mp hg
    exact h.sort_run_reversed hg (GraphQuery.racks_eq_nil_of_prefersReverse hprefers)
  · exact hforward

/-- The words found are those that fit the conditions, unless one is malformed. -/
theorem IsSound.search_eq {v : Vocabulary} (h : v.IsSound) (conditions : List Condition) :
    v.search conditions =
      if conditions.any (·.isMalformed) then []
      else v.words.filter fun w => conditions.all (·.fits w) := by
  obtain ⟨hsome, hnone⟩ := GraphQuery.foldlM_add conditions .any
  unfold search GraphQuery.ofConditions
  split
  · next q hq =>
    obtain ⟨hwell, hanswers⟩ := hsome q hq
    rw [h.run_eq_filter, hwell]
    exact List.filter_congr fun w _ => by simp [hanswers]
  · next hq => simp [hnone hq]

/-- The words found are those that fit the conditions; a malformed one is fitted by none. -/
theorem IsSound.search_eq_filter {v : Vocabulary} (h : v.IsSound) (conditions : List Condition) :
    v.search conditions = v.words.filter fun w => conditions.all (·.fits w) := by
  rw [h.search_eq]
  split
  · next hmalformed =>
    obtain ⟨c, hc, hbad⟩ := List.any_eq_true.mp hmalformed
    -- The malformed condition alone leaves no word.
    refine (List.filter_eq_nil_iff.mpr fun w _ hall => ?_).symm
    have hfits := List.all_eq_true.mp hall c hc
    rw [Condition.fits_of_isMalformed hbad] at hfits
    cases hfits
  · rfl

/-- **A search finds the words of the vocabulary that fit every condition**, after any history. They
come in strictly ascending order, as they are listed. There are none if the text of a pattern or
rack is malformed, and the backward graph makes no difference. -/
theorem search_of_history (steps : List VocabularyStep) (conditions : List Condition) :
    (empty.runSteps steps).search conditions =
      (if conditions.any (·.isMalformed) then []
        else (empty.runSteps steps).words.filter fun w => conditions.all (·.fits w)) ∧
    Word.Ascending (empty.runSteps steps).words ∧
    (empty.runSteps steps).search conditions =
      search ⟨(empty.runSteps steps).forward, none⟩ conditions := by
  have hsound := isSound_empty.runSteps steps
  refine ⟨hsound.search_eq conditions, hsound.forward.sorted.ascending_words, ?_⟩
  rw [hsound.search_eq, (IsSound.of_forward hsound.forward).search_eq]
  rfl

end Vocabulary

end WordStudy
