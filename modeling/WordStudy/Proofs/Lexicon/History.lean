import WordStudy.Lexicon.Search
import WordStudy.Proofs.Graph.Vocabulary
import WordStudy.Proofs.Word.Capitals

/-!
# Histories of a lexicon

A lexicon begins without words. Lists and images are imported, stores attached and detached, and
searches and look-ups change the cache. Of all this, **only imports change the vocabulary**, and
what they leave is sound and has words of capital letters only, provided that the alphabet has.
-/

namespace WordStudy

/-- One operation on a lexicon. -/
inductive LexiconStep where
  | importEntries (entries : List WordEntry) (definitions : Bool)
  | importWords (words : List Word)
  /-- Import an image; one that is refused changes nothing. -/
  | importImage (bytes : List UInt8) (backwards : Bool) (expected : Option (BitVec 16))
  | importStems (stems : List Word)
  | attach (store : AttributeStore)
  | detach
  | search (spec : SearchSpec) (capitals : Bool)
  /-- Look a word up. -/
  | row (w : Word)
  | refreshCache (words : List Word)

/-- The operation imports no image. -/
def LexiconStep.isTextual : LexiconStep → Bool
  | .importImage .. => false
  | _ => true

namespace Lexicon

/-! ## §1 Runs -/

/-- The lexicon with the vocabulary of an image, or as it was if the image is refused. -/
def loadImage (lex : Lexicon) (bytes : List UInt8) (backwards : Bool)
    (expected : Option (BitVec 16)) : Lexicon :=
  match lex.importImage bytes backwards expected with
  | .ok loaded => loaded
  | .error _ => lex

/-- The lexicon after one operation. -/
def perform (lex : Lexicon) : LexiconStep → Lexicon
  | .importEntries entries definitions => (lex.importEntries entries definitions).1
  | .importWords words => (lex.importWords words).1
  | .importImage bytes backwards expected => lex.loadImage bytes backwards expected
  | .importStems stems => (lex.importStems stems).1
  | .attach store => lex.attach store
  | .detach => lex.detach
  | .search spec capitals => (lex.search spec capitals).2
  | .row w => (lex.row w).2
  | .refreshCache words => lex.refreshCache words

/-- The lexicon after operations, the first one first. -/
def runHistory (lex : Lexicon) (steps : List LexiconStep) : Lexicon := steps.foldl perform lex

/-- A lexicon that begins without words, under settings with an alphabet of capital letters. -/
def IsFresh (lex : Lexicon) : Prop :=
  ∃ name settings, create name settings = .ok lex ∧
    Word.InCapitals (Word.ofText settings.alphabet)

/-! ## §2 What operations keep -/

/-- **What looking a word up does**: nothing, or the row that the store gives is kept. -/
theorem snd_row (lex : Lexicon) (w : Word) :
    (lex.row w).2 = lex ∨ ∃ row, lex.storedRow w.upper = some row ∧
      (lex.row w).2 = { lex with cache := lex.cache.insert row } := by
  unfold Lexicon.row
  dsimp only
  -- Without a word, with a row in the cache, or with none in the store, nothing changes.
  split
  · exact .inl rfl
  split
  · exact .inl rfl
  split
  · next row hrow => exact .inr ⟨row, hrow, rfl⟩
  · exact .inl rfl

/-- **A search that finds something fills the cache** for what it finds. -/
theorem snd_search (lex : Lexicon) (spec : SearchSpec) (capitals : Bool) :
    (lex.search spec capitals).2 = if (lex.search spec capitals).1 = [] then lex
      else lex.refreshCache (lex.search spec capitals).1 := by
  unfold search
  split
  · rfl
  · next hne => exact (if_neg hne).symm

/-- **What does not depend on the store and the cache.** -/
def IgnoresStore (p : Lexicon → Prop) : Prop :=
  ∀ lex, p lex → ∀ store cache, p { lex with store, cache }

section Store

variable {p : Lexicon → Prop} (h : IgnoresStore p)

include h in
theorem IgnoresStore.row {lex : Lexicon} (hlex : p lex) (w : Word) : p (lex.row w).2 := by
  rcases lex.snd_row w with heq | ⟨row, -, heq⟩
  · rw [heq]
    exact hlex
  · rw [heq]
    exact h lex hlex lex.store _

include h in
theorem IgnoresStore.search {lex : Lexicon} (hlex : p lex) (spec : SearchSpec) (capitals : Bool) :
    p (lex.search spec capitals).2 := by
  rw [snd_search]
  split
  · exact hlex
  · exact h lex hlex lex.store _

end Store

/-- **What every operation keeps** that imports no image: what admitted words, merges and stems keep,
and what does not depend on the store and the cache. -/
structure IsKept (p : Lexicon → Prop) : Prop where
  add : ∀ lex, p lex → ∀ entry w, lex.admits entry = some w → ∀ definition,
    p (lex.addWord w definition)
  merge : ∀ lex, p lex → p { lex with vocabulary := lex.vocabulary.merge }
  stems : ∀ lex, p lex → ∀ stems, p (lex.importStems stems).1
  view : IgnoresStore p

section Kept

variable {p : Lexicon → Prop} (h : IsKept p)

include h in
theorem IsKept.importEntries {lex : Lexicon} (hlex : p lex) (entries : List WordEntry)
    (definitions : Bool) : p (lex.importEntries entries definitions).1 := by
  unfold Lexicon.importEntries
  apply h.merge
  -- The entries are read along with a count, which does not matter.
  apply List.foldlRecOn (motive := fun read : Lexicon × Nat => p read.1)
  · exact hlex
  · intro read hread entry _
    dsimp only
    split
    · exact hread
    · next w hw => exact h.add read.1 hread entry w hw _

include h in
/-- **One operation**, if it is kept by the image that it imports. -/
theorem IsKept.perform {lex : Lexicon} (hlex : p lex) {step : LexiconStep}
    (hload : ∀ bytes backwards expected, step = .importImage bytes backwards expected →
      p (lex.loadImage bytes backwards expected)) : p (lex.perform step) := by
  cases step with
  | importEntries entries definitions => exact h.importEntries hlex entries definitions
  | importWords words => exact h.importEntries hlex _ _
  | importImage bytes backwards expected => exact hload _ _ _ rfl
  | importStems stems => exact h.stems lex hlex stems
  | attach store => exact h.view lex hlex (some store) .empty
  | detach => exact h.view lex hlex none .empty
  | search spec capitals => exact h.view.search hlex spec capitals
  | row w => exact h.view.row hlex w
  | refreshCache words => exact h.view lex hlex lex.store _

include h in
/-- **A whole history**, if it is kept by the images that are imported. -/
theorem IsKept.runHistory {steps : List LexiconStep}
    (hload : ∀ bytes backwards expected, .importImage bytes backwards expected ∈ steps →
      ∀ lex, p lex → p (lex.loadImage bytes backwards expected)) {lex : Lexicon} (hlex : p lex) :
    p (lex.runHistory steps) := by
  induction steps generalizing lex with
  | nil => exact hlex
  | cons step steps ih =>
    -- Only an image has to be looked at by itself, and only if it is one of the steps.
    have hperform : p (lex.perform step) := by
      apply h.perform hlex
      rintro bytes backwards expected rfl
      exact hload bytes backwards expected (by simp) lex hlex
    apply ih _ hperform
    exact fun bytes backwards expected hmem => hload bytes backwards expected (by simp [hmem])

include h in
/-- **A history without images.** -/
theorem IsKept.runTexts {steps : List LexiconStep}
    (htextual : ∀ step ∈ steps, step.isTextual = true) {lex : Lexicon} (hlex : p lex) :
    p (lex.runHistory steps) := by
  apply h.runHistory _ hlex
  intro bytes backwards expected hmem
  cases htextual _ hmem

end Kept

/-! ## §3 Soundness -/

/-- **The vocabulary is sound**, and its words, as the letters that new ones may have, are capital
letters. -/
structure IsSound (lex : Lexicon) : Prop where
  vocabulary : lex.vocabulary.IsSound
  alphabet : Word.InCapitals lex.alphabet
  capitals : ∀ w ∈ lex.vocabulary.words, Word.InCapitals w

/-- A word of the vocabulary is its own upper case. -/
theorem IsSound.upper_eq {lex : Lexicon} (h : lex.IsSound) {w : Word}
    (hw : w ∈ lex.vocabulary.words) : w.upper = w := Word.upper_of_isUpper (h.capitals w hw)

theorem IsSound.map_upper_eq {lex : Lexicon} (h : lex.IsSound) {words : List Word}
    (hwords : ∀ w ∈ words, w ∈ lex.vocabulary.words) : words.map Word.upper = words := by
  rw [List.map_congr_left fun w hw => h.upper_eq (hwords w hw)]
  exact List.map_id _

/-- **A lexicon that is created** has what the settings say and is empty otherwise. -/
theorem create_eq_ok {name : String} {settings : Settings} {lex : Lexicon}
    (h : create name settings = .ok lex) :
    ∃ bag, settings.bag = .ok bag ∧ lex =
      { name
        alphabet := Word.ofText settings.alphabet
        maxWordLength := settings.maxWordLength
        bag
        classifier := Classifier.ofSettings settings bag
        vocabulary := .empty
        anagramCounts := .empty
        stems := .empty
        definitions := .empty
        store := none
        cache := .empty } := by
  -- Only the tile bag of the settings can be refused.
  cases hbag : settings.bag with
  | error fault => simp [create, hbag, bind, Except.bind] at h
  | ok bag =>
    simp only [create, hbag, bind, Except.bind, pure, Except.pure, Except.ok.injEq] at h
    exact ⟨bag, rfl, h.symm⟩

theorem vocabulary_of_create {name : String} {settings : Settings} {lex : Lexicon}
    (h : create name settings = .ok lex) : lex.vocabulary = .empty := by
  obtain ⟨bag, -, rfl⟩ := create_eq_ok h
  rfl

theorem IsFresh.words_eq_nil {lex : Lexicon} (h : lex.IsFresh) : lex.vocabulary.words = [] := by
  obtain ⟨name, settings, hcreate, -⟩ := h
  rw [vocabulary_of_create hcreate]
  rfl

theorem IsFresh.isSound {lex : Lexicon} (h : lex.IsFresh) : lex.IsSound := by
  have hwords := h.words_eq_nil
  obtain ⟨name, settings, hcreate, hcapitals⟩ := h
  obtain ⟨bag, -, rfl⟩ := create_eq_ok hcreate
  exact ⟨Vocabulary.isSound_empty, hcapitals, by simp [hwords]⟩

theorem spelledIn_of_admits {lex : Lexicon} {entry : WordEntry} {w : Word}
    (hw : lex.admits entry = some w) : entry.word.spelledIn lex.alphabet = some w :=
  (Option.filter_eq_some_iff.mp hw).1

theorem upper_of_admits {lex : Lexicon} {entry : WordEntry} {w : Word}
    (hw : lex.admits entry = some w) : w.upper = w := by
  rw [(Word.spelledIn_eq_some (spelledIn_of_admits hw)).1, Word.upper_upper]

/-- A word that is added to a sound vocabulary in upper case is the one new word. -/
theorem mem_words_addWord {lex : Lexicon} (h : lex.vocabulary.IsSound) {entry : WordEntry} {w : Word}
    (hw : lex.admits entry = some w) (definition : Option String) {u : Word}
    (hu : u ∈ (lex.addWord w definition).vocabulary.words) : u = w ∨ u ∈ lex.vocabulary.words := by
  rcases (h.mem_words_add w u).mp hu with ⟨rfl, -⟩ | hold
  · exact .inl (upper_of_admits hw)
  · exact .inr hold

/-- **What is true of all words that are spelled in the alphabet** stays true of all words of the
vocabulary. -/
theorem isKept_words {letters : Word} {q : Word → Prop}
    (hq : ∀ v w : Word, v.spelledIn letters = some w → q w) :
    IsKept fun lex => lex.vocabulary.IsSound ∧ lex.alphabet = letters ∧
      ∀ w ∈ lex.vocabulary.words, q w where
  add lex := by
    rintro ⟨hsound, rfl, hwords⟩ entry w hw definition
    refine ⟨hsound.add w, rfl, ?_⟩
    intro u hu
    -- A word that is new was spelled in the letters of the alphabet.
    rcases mem_words_addWord hsound hw definition hu with rfl | hold
    · exact hq _ _ (spelledIn_of_admits hw)
    · exact hwords u hold
  merge lex := by
    rintro ⟨hsound, halphabet, hwords⟩
    exact ⟨hsound.merge, halphabet, fun w hw => hwords w (hsound.words_merge ▸ hw)⟩
  stems lex hlex stems := hlex
  view lex hlex store cache := hlex

/-- An image that gives a vocabulary is imported. -/
theorem importImage_of_ofImage {lex : Lexicon} {bytes : List UInt8} {backwards : Bool}
    {expected : Option (BitVec 16)} {v : Vocabulary}
    (h : Vocabulary.ofImage bytes backwards expected = .ok v) :
    lex.importImage bytes backwards expected =
      .ok { lex with vocabulary := v, anagramCounts := .ofWords v.words, cache := .empty } := by
  have hcounts : v.forward.foldWords AnagramCounts.add .empty = .ofWords v.words :=
    v.forward.foldWords_eq AnagramCounts.add .empty
  simp [importImage, h, hcounts, bind, Except.bind, pure, Except.pure]

/-- An image that gives none is refused for what is wrong with it. -/
theorem importImage_of_error {lex : Lexicon} {bytes : List UInt8} {backwards : Bool}
    {expected : Option (BitVec 16)} {fault : ImageFault}
    (h : Vocabulary.ofImage bytes backwards expected = .error fault) :
    lex.importImage bytes backwards expected = .error fault := by
  simp [importImage, h, bind, Except.bind]

/-- An image that is accepted replaces all words, and nothing else is of account here. -/
theorem loadImage_eq (lex : Lexicon) (bytes : List UInt8) (backwards : Bool)
    (expected : Option (BitVec 16)) :
    lex.loadImage bytes backwards expected = lex ∨
      ∃ v, Vocabulary.ofImage bytes backwards expected = .ok v ∧
        lex.loadImage bytes backwards expected =
          { lex with vocabulary := v, anagramCounts := .ofWords v.words, cache := .empty } := by
  unfold Lexicon.loadImage
  cases hv : Vocabulary.ofImage bytes backwards expected with
  | error fault =>
    rw [importImage_of_error hv]
    exact .inl rfl
  | ok v =>
    rw [importImage_of_ofImage hv]
    exact .inr ⟨v, rfl, rfl⟩

/-- **What is true of words spelled in the alphabet and of words in capitals** is true of all words
after any history: the reader of images checks that all words are capitals. -/
theorem words_runHistory {lex : Lexicon} {q : Word → Prop}
    (hspelled : ∀ v w : Word, v.spelledIn lex.alphabet = some w → q w)
    (hcapitals : ∀ w : Word, w.InCapitals → q w) (hsound : lex.vocabulary.IsSound)
    (hwords : ∀ w ∈ lex.vocabulary.words, q w) (steps : List LexiconStep) :
    (lex.runHistory steps).vocabulary.IsSound ∧ (lex.runHistory steps).alphabet = lex.alphabet ∧
      ∀ w ∈ (lex.runHistory steps).vocabulary.words, q w := by
  refine (isKept_words hspelled).runHistory ?_ ⟨hsound, rfl, hwords⟩
  intro bytes backwards expected _ lex' hlex
  rcases lex'.loadImage_eq bytes backwards expected with heq | ⟨v, hv, heq⟩
  · rw [heq]
    exact hlex
  · rw [heq]
    exact ⟨Vocabulary.isSound_of_ofImage hv, hlex.2.1,
      fun w hw => hcapitals w (Vocabulary.inCapitals_of_ofImage hv hw)⟩

/-- **Soundness holds throughout** any history. -/
theorem IsSound.runHistory {lex : Lexicon} (h : lex.IsSound) (steps : List LexiconStep) :
    (lex.runHistory steps).IsSound := by
  have hspelled : ∀ v w : Word, v.spelledIn lex.alphabet = some w → w.InCapitals :=
    fun v w hw b hb => h.alphabet b ((Word.spelledIn_eq_some hw).2 b hb)
  obtain ⟨hsound, halphabet, hcapitals⟩ :=
    words_runHistory hspelled (fun _ hw => hw) h.vocabulary h.capitals steps
  exact ⟨hsound, halphabet ▸ h.alphabet, hcapitals⟩

/-! ## §4 Texts alone -/

/-- **Every word may be imported as it is.** Words of an image need not be spelled in the alphabet
of the lexicon. -/
def IsSpelled (lex : Lexicon) : Prop :=
  ∀ w ∈ lex.vocabulary.words, w.spelledIn lex.alphabet = some w

/-- **Words stay spelled in the alphabet** as long as no image is imported. -/
theorem IsSpelled.runHistory {lex : Lexicon} (hsound : lex.IsSound) (h : lex.IsSpelled)
    {steps : List LexiconStep} (htextual : ∀ step ∈ steps, step.isTextual = true) :
    (lex.runHistory steps).IsSpelled := by
  have hkept := isKept_words (q := fun w => w.spelledIn lex.alphabet = some w)
    fun v w hw => Word.spelledIn_of_spelledIn hw
  obtain ⟨-, halphabet, hspelled⟩ := hkept.runTexts htextual ⟨hsound.vocabulary, rfl, h⟩
  rw [IsSpelled, halphabet]
  exact hspelled

theorem IsFresh.isSpelled {lex : Lexicon} (h : lex.IsFresh) : lex.IsSpelled := by
  intro w hw
  simp [h.words_eq_nil] at hw

end Lexicon

end WordStudy
