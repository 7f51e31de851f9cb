import WordStudy.Proofs.Graph.Decode
import WordStudy.Proofs.Graph.Merge

/-!
# Histories of a graph

A graph begins empty or as the graph of an image, and words are inserted and nodes merged in any
order. Two things hold all the time: the graph is sorted, and its sharing is sound. From the first
it follows what a graph contains and lists, and what an insertion changes; from the second that
merging, which looks nodes up by their numbers, changes no word.
-/

namespace WordStudy

open Text

/-- One change of a graph. -/
inductive GraphStep where
  | insert (w : Word)
  | merge
  deriving DecidableEq, Repr

namespace WordGraph

/-! ## §1 Soundness -/

/-- **The graph is sorted and shares its nodes soundly.** -/
structure IsSound (g : WordGraph) : Prop where
  sorted : g.root.edges.Sorted
  sharesSoundly : SharesSoundly g.nodes g.size

theorem isSound_empty : empty.IsSound where
  sorted := trivial
  sharesSoundly := by
    constructor <;> simp [nodes, empty, looseNumbers]

theorem IsSound.insert {g : WordGraph} (h : g.IsSound) (w : Word) : (g.insert w).1.IsSound :=
  ⟨sorted_insert h.sorted w, sharesSoundly_insert h.sharesSoundly w⟩

theorem IsSound.merge {g : WordGraph} (h : g.IsSound) : g.merge.IsSound :=
  ⟨sorted_merge h.sharesSoundly h.sorted, sharesSoundly_merge h.sharesSoundly⟩

theorem IsSound.contains_iff {g : WordGraph} (h : g.IsSound) (w : Word) :
    g.contains w = true ↔ w ∈ g.words := contains_iff_mem_words h.sorted w

theorem IsSound.contains_congr {g g' : WordGraph} (h : g.IsSound) (h' : g'.IsSound) {v v' : Word}
    (hwords : v ∈ g.words ↔ v' ∈ g'.words) : g.contains v = g'.contains v' := by
  rw [Bool.eq_iff_iff, h.contains_iff, h'.contains_iff, hwords]

/-- **An insertion adds one word** to what a sound graph contains. -/
theorem IsSound.contains_insert {g : WordGraph} (h : g.IsSound) (w v : Word) :
    (g.insert w).1.contains v = true ↔ (v = w ∧ w ≠ []) ∨ g.contains v = true := by
  rw [(h.insert w).contains_iff, h.contains_iff, mem_words_insert h.sorted]

/-- An insertion changes nothing about other words. -/
theorem IsSound.contains_insert_of_ne {g : WordGraph} (h : g.IsSound) {w v : Word} (hne : v ≠ w) :
    (g.insert w).1.contains v = g.contains v := by
  rw [Bool.eq_iff_iff, h.contains_insert]
  simp [hne]

/-- **Merging changes nothing** about any word. -/
theorem IsSound.contains_merge {g : WordGraph} (h : g.IsSound) (v : Word) :
    g.merge.contains v = g.contains v :=
  h.merge.contains_congr h (by rw [words_merge h.sharesSoundly])

/-! ## §2 Runs -/

/-- The graph after one change. -/
def perform (g : WordGraph) : GraphStep → WordGraph
  | .insert w => (g.insert w).1
  | .merge => g.merge

/-- The graph after changes, the first one first. -/
def run (g : WordGraph) (steps : List GraphStep) : WordGraph := steps.foldl perform g

/-- A graph that is read from an image is sound. -/
theorem isSound_of_decode {bytes : List UInt8} {g : WordGraph} (h : Image.decode bytes = .ok g) :
    g.IsSound := by
  have hread := Image.describes_of_decode h
  exact ⟨hread.sorted, hread.sharesSoundly⟩

/-- A graph to begin with: without words, or read from an image. -/
def IsInitial (g : WordGraph) : Prop := g = empty ∨ ∃ bytes, Image.decode bytes = .ok g

theorem IsInitial.isSound {g : WordGraph} (h : g.IsInitial) : g.IsSound := by
  rcases h with rfl | ⟨bytes, hdecode⟩
  · exact isSound_empty
  · exact isSound_of_decode hdecode

/-- The word count of a graph to begin with is exact up to the greatest number of 64 bits. -/
theorem IsInitial.wordCount_eq {g : WordGraph} (h : g.IsInitial) :
    g.wordCount = min g.words.length maxWord64 := by
  rcases h with rfl | ⟨bytes, hdecode⟩
  · rfl
  · exact (Image.describes_of_decode hdecode).wordCount_eq

theorem IsSound.perform {g : WordGraph} (h : g.IsSound) (step : GraphStep) :
    (g.perform step).IsSound := by
  cases step with
  | insert w => exact h.insert w
  | merge => exact h.merge

theorem IsSound.contains_perform {g : WordGraph} (h : g.IsSound) (step : GraphStep) (v : Word) :
    (g.perform step).contains v = true ↔
      (v ≠ [] ∧ step = .insert v) ∨ g.contains v = true := by
  cases step with
  | insert w =>
    rw [WordGraph.perform, h.contains_insert]
    -- An insert adds its own word only, and a merge adds none.
    constructor
    · rintro (⟨rfl, hv⟩ | hv)
      · exact .inl ⟨hv, rfl⟩
      · exact .inr hv
    · rintro (⟨hv, heq⟩ | hv)
      · cases heq
        exact .inl ⟨rfl, hv⟩
      · exact .inr hv
  | merge => simp [WordGraph.perform, h.contains_merge]

/-- One change adds as much to the word count as to the words listed. -/
theorem IsSound.wordCount_perform {g : WordGraph} (h : g.IsSound) (step : GraphStep) :
    ∃ more, (g.perform step).wordCount = g.wordCount + more ∧
      (g.perform step).words.length = g.words.length + more := by
  cases step with
  | insert w => exact ⟨_, wordCount_insert g w, length_words_insert h.sorted w⟩
  | merge => exact ⟨0, rfl, by rw [WordGraph.perform, words_merge h.sharesSoundly]; rfl⟩

/-- **Soundness holds throughout** any run. -/
theorem IsSound.run {g : WordGraph} (h : g.IsSound) (steps : List GraphStep) :
    (g.run steps).IsSound := by
  induction steps generalizing g with
  | nil => exact h
  | cons step steps ih => exact ih (h.perform step)

/-- **A run adds the words that it inserts**, other than the empty one. -/
theorem IsSound.contains_run {g : WordGraph} (h : g.IsSound) (steps : List GraphStep) (v : Word) :
    (g.run steps).contains v = true ↔
      (v ≠ [] ∧ .insert v ∈ steps) ∨ g.contains v = true := by
  induction steps generalizing g with
  | nil => simp [WordGraph.run]
  | cons step steps ih =>
    have hrest := ih (h.perform step)
    -- The word is inserted by the first step, by a later one, or it was there before.
    rw [h.contains_perform] at hrest
    simp only [WordGraph.run, List.foldl_cons] at hrest ⊢
    rw [hrest, List.mem_cons]
    grind

/-- A run adds as much to the word count as to the words listed. -/
theorem IsSound.wordCount_run {g : WordGraph} (h : g.IsSound) (steps : List GraphStep) :
    ∃ more, (g.run steps).wordCount = g.wordCount + more ∧
      (g.run steps).words.length = g.words.length + more := by
  induction steps generalizing g with
  | nil => exact ⟨0, rfl, rfl⟩
  | cons step steps ih =>
    obtain ⟨first, hcount, hlength⟩ := h.wordCount_perform step
    obtain ⟨rest, hcount', hlength'⟩ := ih (h.perform step)
    refine ⟨first + rest, ?_, ?_⟩
    · exact hcount'.trans (by omega)
    · exact hlength'.trans (by omega)

theorem ne_nil_of_contains {g : WordGraph} {w : Word} (h : g.contains w = true) : w ≠ [] := by
  rintro rfl
  simp [contains] at h

/-- **A graph is a set of words, whatever is done to it.** After any insertions and merges in any
order, it contains the words that it began with and those inserted, other than the empty word. An
insertion tells whether the word is new and changes nothing about another one; merging changes
nothing at all. The words are listed in strictly ascending order, each once, and as long as they
are fewer than the greatest number of 64 bits, they are as many as the word count says. Equal
numbers are on equal nodes throughout. -/
theorem run_behaves_as_set {g₀ : WordGraph} (h₀ : g₀.IsInitial) (steps : List GraphStep) :
    (∀ w, (g₀.run steps).contains w = true ↔
      w ≠ [] ∧ (g₀.contains w = true ∨ .insert w ∈ steps)) ∧
    (∀ w, ((g₀.run steps).insert w).2 = true ↔ w ≠ [] ∧ (g₀.run steps).contains w = false) ∧
    (∀ w v, v ≠ w → ((g₀.run steps).insert w).1.contains v = (g₀.run steps).contains v) ∧
    (∀ v, (g₀.run steps).merge.contains v = (g₀.run steps).contains v) ∧
    Word.Ascending (g₀.run steps).words ∧
    (∀ w, w ∈ (g₀.run steps).words ↔ (g₀.run steps).contains w = true) ∧
    ((g₀.run steps).words.length < maxWord64 →
      (g₀.run steps).wordCount = (g₀.run steps).words.length) ∧
    (∀ n ∈ (g₀.run steps).nodes, ∀ m ∈ (g₀.run steps).nodes,
      n.mark.number = m.mark.number → n = m) := by
  have hsound := h₀.isSound.run steps
  refine ⟨?_, insert_isNew _, fun w v => hsound.contains_insert_of_ne, hsound.contains_merge,
    hsound.sorted.ascending_words, fun w => (hsound.contains_iff w).symm, ?_,
    fun n hn m hm => hsound.sharesSoundly.eq_of_number_eq hn hm⟩
  · intro w
    rw [h₀.isSound.contains_run]
    constructor
    -- The words there at first are no empty word, as no graph holds it.
    · rintro (⟨hw, hmem⟩ | hw)
      · exact ⟨hw, .inr hmem⟩
      · exact ⟨ne_nil_of_contains hw, .inl hw⟩
    · rintro ⟨hw, hold | hmem⟩
      · exact .inr hold
      · exact .inl ⟨hw, hmem⟩
  · -- The count of an image stops at the greatest number, but the words were fewer then.
    intro hfew
    obtain ⟨more, hcount, hlength⟩ := h₀.isSound.wordCount_run steps
    have hfirst := h₀.wordCount_eq
    omega

/-- The words `AT` and `BT` as an image, which share their last node. -/
def imageOfTwo : List UInt8 :=
  [0x44, 0x41, 0x57, 0x47, 4, 0, 0, 0, 0, 4, 0, 0, 0x41, 0x0C, 0, 0, 0x42, 0x0E, 0, 0, 0x54, 3, 0, 0]

end WordGraph

end WordStudy
