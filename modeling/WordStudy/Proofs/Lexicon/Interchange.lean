import WordStudy.Proofs.Graph.Canonical
import WordStudy.Proofs.Graph.Capitals
import WordStudy.Proofs.Graph.DeadEnds
import WordStudy.Proofs.Lexicon.Agreement

/-!
# Words handed over as an image

The words of a lexicon can be handed to another one as an image, either as they are or **each spelled
backwards**. In the one case the graph that is read is used as it is; in the other one it becomes the
backward graph, and a forward graph is made of it. Either way the lexicons agree from then on, and no
question that is asked without a store can tell them apart, whatever words are added to both. A graph
that took over dead ends of its own may be written and not be read, however short its words are.
-/

namespace WordStudy

open Text

namespace Vocabulary

/-! ## §1 Images of words -/

/-- **Who writes an image of the words**: the vocabulary itself, or any one that a history leaves
with these words spelled backwards. -/
inductive IsWriter (v : Vocabulary) : Vocabulary → Bool → Prop
  | itself : IsWriter v v false
  | backwards (steps : List VocabularyStep)
    (hturned : ∀ w, w ∈ (empty.runSteps steps).words ↔ w.reverse ∈ v.words) :
    IsWriter v (empty.runSteps steps) true

variable {v : Vocabulary}

/-- **A vocabulary is written** if its edges, each shared node counted once, have room in a table. -/
theorem IsSound.exists_image (h : v.IsSound)
    (hroom : 1 + v.forward.merge.edgeTotal ≤ Image.maxEntries) : ∃ bytes, v.image = .ok bytes := by
  cases himage : v.image with
  | ok bytes => exact ⟨bytes, rfl⟩
  | error fault =>
    have hshares := h.merge.forward.sharesSoundly
    have hfull := ((Image.encode_eq_error_iff hshares fault).mp himage).2
    exact absurd hroom (Nat.not_le_of_lt hfull)

/-- Merging keeps the paths. -/
theorem IsSound.height_merge (h : v.IsSound) :
    v.forward.merge.root.edges.height = v.forward.root.edges.height := by
  obtain ⟨-, -, hbare⟩ := WordGraph.merge_spec h.forward.sharesSoundly
  rw [← Edges.height_bare, hbare, Edges.height_bare]

/-- **The image of a vocabulary is read again**, if its edges have capital letters, unless one of its
paths is too long for the reader. -/
theorem IsSound.decode_image (h : v.IsSound) (hupper : v.forward.root.edges.Upper)
    {bytes : List UInt8} (himage : v.image = .ok bytes) :
    (∃ g, Image.decode bytes = .ok g ∧ g.words = v.words ∧
      g.wordCount = min v.words.length maxWord64) ∨
    Image.decode bytes = .error .tooDeep ∧ Image.maxDepth < v.forward.root.edges.height := by
  have hmerge : v.forward.merge.words = v.words := h.words_merge
  rw [← hmerge, ← h.height_merge]
  rcases Image.decode_of_encode h.forward.merge (WordGraph.upper_merge h.forward hupper) himage with
    ⟨g, hdecode, hsame, hcount, -⟩ | htooDeep
  · exact .inl ⟨g, hdecode, hsame, hcount⟩
  · exact .inr htooDeep

/-- A path to the only dead end that is too long keeps the image of a vocabulary from being read. -/
theorem IsSound.decode_of_dead_end (h : v.IsSound) (hupper : v.IsUpper) {bytes : List UInt8}
    (himage : v.image = .ok bytes) {w : Word}
    (hdead : v.forward.merge.root.edges.deadEnds = [w]) (hlong : Image.maxDepth < w.length) :
    Image.decode bytes = .error .tooDeep := by
  refine Image.decode_of_dead_end h.forward.merge (hupper.merge h).forward himage
    (by rw [hdead]; exact List.mem_singleton_self w) ?_ hlong
  intro u hu
  rw [hdead, List.mem_singleton] at hu
  simp [hu]

/-- Without dead ends, a path that is too long goes on to a word that is. -/
theorem IsWhole.decode_image (h : v.IsWhole) (hcapitals : ∀ w ∈ v.words, w.InCapitals)
    {bytes : List UInt8} (himage : v.image = .ok bytes) :
    (∃ g, Image.decode bytes = .ok g ∧ g.words = v.words ∧
      g.wordCount = min v.words.length maxWord64) ∨
    Image.decode bytes = .error .tooDeep ∧ ∃ w ∈ v.words, Image.maxDepth < w.length := by
  rcases h.sound.decode_image (h.live.edges.upper hcapitals) himage with hread | ⟨hdecode, hlong⟩
  · exact .inl hread
  · exact .inr ⟨hdecode, h.live.edges.exists_word_of_lt_height hlong⟩

/-- Without dead ends, no path is longer than all words. -/
theorem IsWhole.height_le (h : v.IsWhole) {n : Nat} (hwords : ∀ w ∈ v.words, w.length ≤ n) :
    v.forward.root.edges.height ≤ n := by
  by_contra hlong
  obtain ⟨w, hw, hlength⟩ := h.live.edges.exists_word_of_lt_height (Nat.lt_of_not_le hlong)
  exact absurd (hwords w hw) (Nat.not_le_of_lt hlength)

/-- A graph that is read gives a vocabulary, if the checksum is the right one or none is given. -/
theorem ofImage_of_decode {bytes : List UInt8} {g : WordGraph} (hdecode : Image.decode bytes = .ok g)
    {expected : Option (BitVec 16)} (hexpected : ∀ sum ∈ expected, sum = checksum bytes)
    (backwards : Bool) :
    ofImage bytes backwards expected =
      .ok (if backwards then ⟨turned g, some g⟩ else ⟨g, none⟩) := by
  have hnone : expected.filter (· != checksum bytes) = none := by
    rw [Option.filter_eq_none_iff]
    intro sum hsum
    simpa using hexpected sum hsum
  unfold ofImage
  rw [hnone, hdecode]
  cases backwards <;> rfl

/-- With the right checksum or none an image is refused if its graph is. -/
theorem ofImage_of_decode_error {bytes : List UInt8} {fault : ImageFault}
    (hdecode : Image.decode bytes = .error fault) {expected : Option (BitVec 16)}
    (hexpected : ∀ sum ∈ expected, sum = checksum bytes) (backwards : Bool) :
    ofImage bytes backwards expected = .error fault := by
  have hnone : expected.filter (· != checksum bytes) = none := by
    rw [Option.filter_eq_none_iff]
    intro sum hsum
    simpa using hexpected sum hsum
  unfold ofImage
  rw [hnone, hdecode]
  rfl

/-- The turned graph counts its words one by one. -/
theorem wordCount_turned (g : WordGraph) : (turned g).wordCount = (turned g).words.length := by
  have hsound := WordGraph.isSound_empty.run (g.words.map fun w => GraphStep.insert w.reverse)
  obtain ⟨more, hcount, hlength⟩ := WordGraph.isSound_empty.wordCount_run
    (g.words.map fun w => GraphStep.insert w.reverse)
  rw [turned_eq_run, WordGraph.words_merge hsound.sharesSoundly, WordGraph.wordCount_merge, hcount,
    hlength]
  rfl

theorem IsWriter.isSound {u : Vocabulary} {backwards : Bool} (hwriter : v.IsWriter u backwards)
    (h : v.IsWhole) : u.IsSound := by
  cases hwriter with
  | itself => exact h.sound
  | backwards steps _ => exact isSound_empty.runSteps steps

/-- **A writer of words in capitals** has capital letters along all edges. -/
theorem IsWriter.upper {u : Vocabulary} {backwards : Bool} (hwriter : v.IsWriter u backwards)
    (h : v.IsWhole) (hcapitals : ∀ w ∈ v.words, w.InCapitals) : u.forward.root.edges.Upper := by
  cases hwriter with
  | itself => exact h.live.edges.upper hcapitals
  | backwards steps hturned =>
    refine (isUpper_runSteps fun w hw b hb => ?_).forward
    exact hcapitals _ ((hturned w).mp hw) b (List.mem_reverse.mpr hb)

/-- **What is written is read**, whichever way the words are spelled, and has the same words; or a
path of the writer is too long for the reader. -/
theorem IsWriter.ofImage_eq {u : Vocabulary} {backwards : Bool} (hwriter : v.IsWriter u backwards)
    (h : v.IsWhole) (hcapitals : ∀ w ∈ v.words, w.InCapitals) {bytes : List UInt8}
    (himage : u.image = .ok bytes) {expected : Option (BitVec 16)}
    (hexpected : ∀ sum ∈ expected, sum = checksum bytes) :
    (∃ loaded, ofImage bytes backwards expected = .ok loaded ∧ loaded.words = v.words ∧
      (v.words.length ≤ maxWord64 → loaded.wordCount = loaded.words.length)) ∨
    ofImage bytes backwards expected = .error .tooDeep ∧
      Image.maxDepth < u.forward.root.edges.height := by
  rcases (hwriter.isSound h).decode_image (hwriter.upper h hcapitals) himage with
    ⟨g, hdecode, hsame, hcount⟩ | ⟨hdecode, hlong⟩
  · left
    cases hwriter with
    | itself =>
      refine ⟨_, ofImage_of_decode hdecode hexpected false, hsame, fun hfew => ?_⟩
      calc g.wordCount = min v.words.length maxWord64 := hcount
        _ = v.words.length := Nat.min_eq_left hfew
        _ = g.words.length := by rw [hsame]
    | backwards steps hturned =>
      have hread := WordGraph.isSound_of_decode hdecode
      refine ⟨_, ofImage_of_decode hdecode hexpected true, ?_, fun _ => wordCount_turned g⟩
      apply (isSound_turned g).sorted.ascending_words.eq_of_mem_iff
        h.sound.forward.sorted.ascending_words
      -- A word is turned twice, on its way into the image and out of it.
      intro w
      show w ∈ (turned g).words ↔ w ∈ v.words
      rw [← (isSound_turned g).contains_iff, contains_turned hread, hread.contains_iff, hsame,
        hturned, List.reverse_reverse]
  · exact .inr ⟨ofImage_of_decode_error hdecode hexpected backwards, hlong⟩

/-- **A writer without dead ends** has no path that is too long, if the words are not. -/
theorem IsWriter.height_le {u : Vocabulary} {backwards : Bool} (hwriter : v.IsWriter u backwards)
    (h : v.IsWhole) {n : Nat} (hwords : ∀ w ∈ v.words, w.length ≤ n)
    (hclean : backwards = false ∨ u.IsBuilt) : u.forward.root.edges.height ≤ n := by
  cases hwriter with
  | itself => exact h.height_le hwords
  | backwards steps hturned =>
    have hbuilt := hclean.resolve_left (by simp)
    apply hbuilt.isWhole.height_le
    intro w hw
    have hlength := hwords _ ((hturned w).mp hw)
    rwa [List.length_reverse] at hlength

/-- A word that is added is counted. -/
theorem IsSound.wordCount_add (h : v.IsSound) (hcount : v.wordCount = v.words.length) (w : Word) :
    (v.add w).1.wordCount = (v.add w).1.words.length := by
  have hinsert : (v.forward.insert w.upper).1.wordCount =
      (v.forward.insert w.upper).1.words.length := by
    rw [WordGraph.wordCount_insert, WordGraph.length_words_insert h.forward.sorted]
    exact congrArg (· + _) hcount
  unfold Vocabulary.add
  split
  · next forward heq =>
    rw [heq] at hinsert
    exact hinsert
  · exact hcount

end Vocabulary

namespace Lexicon

variable {lex : Lexicon}

/-! ## §2 What imports keep -/

theorem isKept_isWhole : IsKept fun lex => lex.vocabulary.IsWhole where
  add _ h _ w _ _ := h.add w
  merge _ h := h.merge
  stems _ h _ := h
  view _ h _ _ := h

/-- **The word count is exact.** -/
def CountsExactly (lex : Lexicon) : Prop :=
  lex.vocabulary.IsSound ∧ lex.wordCount = lex.vocabulary.words.length

theorem isKept_countsExactly : IsKept CountsExactly where
  add _ h _ w _ _ := ⟨h.1.add w, h.1.wordCount_add h.2 w⟩
  merge _ h := ⟨h.1.merge, h.2.trans (congrArg List.length h.1.words_merge.symm)⟩
  stems _ h _ := h
  view _ h _ _ := h

/-- **The lexicon has the settings**, and its alphagrams are those of its stems. -/
structure HasSettings (settings : Settings) (tiles : TileBag) (lex : Lexicon) : Prop where
  alphabet : lex.alphabet = Word.ofText settings.alphabet
  maxWordLength : lex.maxWordLength = settings.maxWordLength
  bag : lex.bag = tiles
  classifier : lex.classifier = Classifier.ofSettings settings tiles
  stems : lex.stems.IsListed

theorem isKept_hasSettings (settings : Settings) (tiles : TileBag) :
    IsKept (HasSettings settings tiles) where
  add _ h _ _ _ _ := { h with }
  merge _ h := { h with }
  stems _ h stems := { h with stems := h.stems.add stems }
  view _ h _ _ := { h with }

/-- **Settings stay what they are**, after any history. -/
theorem hasSettings_runHistory {name : String} {settings : Settings} {lex₀ : Lexicon}
    (hcreate : create name settings = .ok lex₀) {bag : TileBag} (hbag : settings.bag = .ok bag)
    (steps : List LexiconStep) : (lex₀.runHistory steps).HasSettings settings bag := by
  apply (isKept_hasSettings settings bag).runHistory
  · intro bytes backwards expected _ lex h
    rcases lex.loadImage_eq bytes backwards expected with heq | ⟨v, -, heq⟩
    · rw [heq]
      exact h
    · rw [heq]
      exact { h with }
  · obtain ⟨bag', hbag', rfl⟩ := create_eq_ok hcreate
    obtain rfl : bag' = bag := Except.ok.inj (hbag'.symm.trans hbag)
    exact ⟨rfl, rfl, rfl, rfl, StemIndex.isListed_empty⟩

/-- **Lexicons with the same settings, stems and words agree.** -/
theorem HasSettings.agrees {settings : Settings} {tiles : TileBag} {other : Lexicon}
    (h : lex.HasSettings settings tiles) (h' : other.HasSettings settings tiles)
    (hstems : ∀ length w, w ∈ lex.stems.stems length ↔ w ∈ other.stems.stems length)
    (hsound : lex.vocabulary.IsSound) (hsound' : other.vocabulary.IsSound)
    (hwords : lex.vocabulary.words = other.vocabulary.words) : lex.Agrees other where
  alphabet := h.alphabet.trans h'.alphabet.symm
  maxWordLength := h.maxWordLength.trans h'.maxWordLength.symm
  bag := h.bag.trans h'.bag.symm
  classifier := h.classifier.trans h'.classifier.symm
  stems := h.stems.contains_eq h'.stems hstems
  words := hwords
  sound := hsound
  sound' := hsound'

/-! ## §3 Without a store -/

/-- **There is no store, and no row in the cache.** -/
structure IsBare (lex : Lexicon) : Prop where
  store : lex.store = none
  cache : lex.cache = .empty

theorem isBare_detach (lex : Lexicon) : lex.detach.IsBare := ⟨rfl, rfl⟩

theorem IsBare.row_eq (h : lex.IsBare) (w : Word) : lex.row w = (none, lex) := by
  have hcache : lex.cache.get? w.upper = none := by
    rw [h.cache]
    simp [RowCache.get?, RowCache.empty]
  have hstored : lex.storedRow w.upper = none := by
    rw [storedRow, h.store]
    rfl
  simp only [row, hcache, hstored, ite_self]

theorem IsBare.refreshCache (h : lex.IsBare) (words : List Word) :
    (lex.refreshCache words).IsBare := by
  refine ⟨h.store, ?_⟩
  rw [Lexicon.refreshCache, h.store]
  rfl

theorem IsBare.importEntries (h : lex.IsBare) (entries : List WordEntry) (definitions : Bool) :
    (lex.importEntries entries definitions).1.IsBare := by
  have hread : ∀ read : Lexicon × Nat, read.1.IsBare →
      IsBare { read.1 with vocabulary := read.1.vocabulary.merge } := fun _ h => ⟨h.store, h.cache⟩
  unfold Lexicon.importEntries
  apply hread
  apply List.foldlRecOn (motive := fun read : Lexicon × Nat => read.1.IsBare)
  · exact h
  · intro read hread entry _
    dsimp only
    split
    · exact hread
    · exact ⟨hread.store, hread.cache⟩

theorem IsBare.perform (h : lex.IsBare) {step : LexiconStep} (hstep : step.addsOrAsks = true) :
    (lex.perform step).IsBare := by
  -- The steps named here attach no store, so that no row is ever cached.
  cases step with
  | importEntries entries definitions => exact h.importEntries entries definitions
  | importWords words => exact h.importEntries _ _
  | importImage => cases hstep
  | importStems stems => exact ⟨h.store, h.cache⟩
  | attach => cases hstep
  | detach => exact isBare_detach lex
  | search spec capitals =>
    show (lex.search spec capitals).2.IsBare
    unfold Lexicon.search
    split
    · exact h
    · exact h.refreshCache _
  | row w =>
    show (lex.row w).2.IsBare
    rw [h.row_eq]
    exact h
  | refreshCache words => exact h.refreshCache words

/-- **No row is found** as long as no store is attached. -/
theorem IsBare.runHistory (h : lex.IsBare) {steps : List LexiconStep}
    (hsteps : ∀ step ∈ steps, step.addsOrAsks = true) : (lex.runHistory steps).IsBare := by
  induction steps generalizing lex with
  | nil => exact h
  | cons step steps ih =>
    exact ih (h.perform (hsteps step (by simp))) fun step hstep => hsteps step (by simp [hstep])

theorem IsBare.fst_anagrams (h : lex.IsBare) (w : Word) :
    (lex.anagrams w).1 = lex.anagramCounts.count w := by
  rw [anagrams, lookUp, h.row_eq]
  rfl

/-! ## §4 Handing over -/

/-- Two lexicons that agree go on to answer alike, if the second one has no store: as if the first one
had none. -/
theorem Agrees.answers_runHistory {other : Lexicon} (h : lex.Agrees other) (hbare : other.IsBare)
    (hcounts : lex.CountsItsWords) (hcounts' : other.CountsItsWords) {more : List LexiconStep}
    (hmore : ∀ step ∈ more, step.addsOrAsks = true) :
    (∀ w, ((other.runHistory more).anagrams w).1 = ((lex.runHistory more).detach.anagrams w).1) ∧
    ∀ spec capitals, ((other.runHistory more).search spec capitals).1 =
      ((lex.runHistory more).detach.search spec capitals).1 := by
  have hagrees : (lex.runHistory more).Agrees (other.runHistory more) :=
    h.runHistory fun step hstep => LexiconStep.isTextual_of_addsOrAsks (hmore step hstep)
  have hbare' := hbare.runHistory hmore
  constructor
  · intro w
    rw [hbare'.fst_anagrams, (isBare_detach _).fst_anagrams]
    exact (hagrees.count_eq (hcounts.runHistory h.sound more)
      (hcounts'.runHistory h.sound' more) w).symm
  · intro spec capitals
    have hdetached := ignoresStore_agrees_left _ _ hagrees none .empty
    exact (hdetached.search_eq rfl hbare'.store spec capitals).symm

/-- **Words handed over as an image.** The one lexicon was filled from texts, with words of capital
letters that the reader of images takes; the other one has the same settings and stems, no store, and
any history otherwise. An image of the words of the first, as they are or spelled backwards, is
imported into the second. If that succeeds then, from then on, whatever words and stems are added to
both and whatever is asked meanwhile, both have the same words, as many, as far as 64 bits hold their
number, and the same counts of anagrams, and every search finds in the second what it finds in the
first without a store. It is refused only because the writer has a path that is too long for the
reader, to a dead end, and never if the words are as they are or the writer has no dead ends. -/
theorem importImage_of_writer {name name' : String} {settings : Settings}
    {lex₀ other₀ : Lexicon} (hcreate : create name settings = .ok lex₀)
    (hcreate' : create name' settings = .ok other₀) {steps steps' : List LexiconStep}
    (htextual : ∀ step ∈ steps, step.isTextual = true)
    (hwords : ∀ w ∈ (lex₀.runHistory steps).vocabulary.words,
      w.InCapitals ∧ w.length ≤ Image.maxDepth)
    (hstore : (other₀.runHistory steps').store = none)
    (hstems : ∀ length w, w ∈ (lex₀.runHistory steps).stems.stems length ↔
      w ∈ (other₀.runHistory steps').stems.stems length)
    {writer : Vocabulary} {backwards : Bool}
    (hwriter : (lex₀.runHistory steps).vocabulary.IsWriter writer backwards)
    {bytes : List UInt8} (himage : writer.image = .ok bytes)
    {expected : Option (BitVec 16)} (hexpected : ∀ sum ∈ expected, sum = checksum bytes) :
    let result := (other₀.runHistory steps').importImage bytes backwards expected
    (∀ loaded, result = .ok loaded →
      ∀ more : List LexiconStep, (∀ step ∈ more, step.addsOrAsks = true) →
        (loaded.runHistory more).vocabulary.words =
          ((lex₀.runHistory steps).runHistory more).vocabulary.words ∧
        ((lex₀.runHistory steps).wordCount ≤ maxWord64 →
          (loaded.runHistory more).wordCount =
            ((lex₀.runHistory steps).runHistory more).wordCount) ∧
        (∀ w, ((loaded.runHistory more).anagrams w).1 =
          (((lex₀.runHistory steps).runHistory more).detach.anagrams w).1) ∧
        ∀ spec capitals, ((loaded.runHistory more).search spec capitals).1 =
          (((lex₀.runHistory steps).runHistory more).detach.search spec capitals).1) ∧
    (∀ fault, result = .error fault →
      fault = .tooDeep ∧ Image.maxDepth < writer.forward.root.edges.height) ∧
    (backwards = false ∨ writer.IsBuilt → ∃ loaded, result = .ok loaded) := by
  -- What the histories leave: the settings, a graph without dead ends, and exact counts.
  obtain ⟨bag, hbag, -⟩ := create_eq_ok hcreate
  have hempty := vocabulary_of_create hcreate
  have hsettings := hasSettings_runHistory hcreate hbag steps
  have hsettings' := hasSettings_runHistory hcreate' hbag steps'
  have hfirst : lex₀.vocabulary.IsWhole := hempty ▸ Vocabulary.isWhole_empty
  have hwhole := isKept_isWhole.runTexts htextual hfirst
  have hexact : CountsExactly lex₀ := ⟨hfirst.sound, by rw [wordCount, hempty]; rfl⟩
  replace hexact := isKept_countsExactly.runTexts htextual hexact
  have hcounts := (countsItsWords_create hcreate).runHistory hfirst.sound steps
  generalize lex₀.runHistory steps = lex at *
  generalize other₀.runHistory steps' = other at *
  intro result
  rcases hwriter.ofImage_eq hwhole (fun w hw => (hwords w hw).1) himage hexpected with
    ⟨v, hofImage, hsame, hcount⟩ | ⟨hofImage, hlong⟩
  · -- The image is read, and the lexicons agree right behind it.
    have hsound := Vocabulary.isSound_of_ofImage hofImage
    let loaded : Lexicon :=
      { other with vocabulary := v, anagramCounts := .ofWords v.words, cache := .empty }
    have hloaded : loaded.HasSettings settings bag := { hsettings' with }
    have hagrees := hsettings.agrees hloaded hstems hwhole.sound hsound hsame.symm
    have hbare : loaded.IsBare := ⟨hstore, rfl⟩
    have hresult : result = .ok loaded := importImage_of_ofImage hofImage
    refine ⟨fun loaded' hloaded' => ?_, fun fault hfault => ?_, fun _ => ⟨loaded, hresult⟩⟩
    · obtain rfl := Except.ok.inj (hresult.symm.trans hloaded')
      -- They go on to agree, and the second one goes on without a store.
      intro more hmore
      have htexts : ∀ step ∈ more, step.isTextual = true :=
        fun step hstep => LexiconStep.isTextual_of_addsOrAsks (hmore step hstep)
      have hcounts' : loaded.CountsItsWords := AnagramCounts.areOf_ofWords v.words
      have hwords' := (hagrees.runHistory htexts).words.symm
      refine ⟨hwords', fun hfew => ?_, hagrees.answers_runHistory hbare hcounts hcounts' hmore⟩
      have hexact' : CountsExactly loaded := ⟨hsound, hcount (hexact.2 ▸ hfew)⟩
      rw [(isKept_countsExactly.runTexts htexts hexact').2,
        (isKept_countsExactly.runTexts htexts hexact).2, hwords']
    · cases hresult.symm.trans hfault
  · -- The image is refused.
    have hresult : result = .error .tooDeep := importImage_of_error hofImage
    refine ⟨fun loaded hloaded => ?_, fun fault hfault => ?_, fun hclean => ?_⟩
    · cases hresult.symm.trans hloaded
    · cases hresult.symm.trans hfault
      exact ⟨rfl, hlong⟩
    · have hheight := hwriter.height_le hwhole (fun w hw => (hwords w hw).2) hclean
      exact absurd hheight (Nat.not_le_of_lt hlong)

/-- The words `TA` and `A`, to be read backwards. -/
def turnedWords : Vocabulary := Vocabulary.empty.runSteps [.importWords [[0x54, 0x41], [0x41]]]

theorem isBuilt_turnedWords : turnedWords.IsBuilt := .importWords .empty _

theorem exists_image_turnedWords : ∃ bytes, turnedWords.image = .ok bytes :=
  isBuilt_turnedWords.isWhole.sound.exists_image (by decide +kernel)

/-- `AT` and `A` are handed over spelled backwards to a lexicon that had another word. When `TA` is
added to both, both have the three words, and a search for words that end in `T`, which goes along
the backward graph, finds `AT`. -/
theorem importImage_of_turned_words :
    ∃ (lex₀ lex other loaded : Lexicon) (bytes : List UInt8), create "" twoLetters = .ok lex₀ ∧
      lex = lex₀.runHistory [.importWords [[0x41, 0x54], [0x41]]] ∧
      other = lex₀.runHistory [.importWords [[0x54]]] ∧ turnedWords.image = .ok bytes ∧
      other.importImage bytes true (some (checksum bytes)) = .ok loaded ∧
      (loaded.runHistory [.importWords [[0x54, 0x41]]]).vocabulary.words =
        [[0x41], [0x41, 0x54], [0x54, 0x41]] ∧
      ((loaded.runHistory [.importWords [[0x54, 0x41]]]).search
        ⟨[.pattern "*T" false], true⟩ true).1 = [[0x41, 0x54]] := by
  obtain ⟨bytes, himage⟩ := exists_image_turnedWords
  have hcreate : create "" twoLetters = .ok _ := rfl
  have htextual : ∀ step ∈ [LexiconStep.importWords [[0x41, 0x54], [0x41]]],
      step.isTextual = true := by simp [LexiconStep.isTextual]
  have hmore : ∀ step ∈ [LexiconStep.importWords [[0x54, 0x41]]], step.addsOrAsks = true := by
    simp [LexiconStep.addsOrAsks]
  have hexpected : ∀ sum ∈ some (checksum bytes), sum = checksum bytes := by simp
  -- The image holds the words backwards, and it is read as such.
  have hturned : ∀ w, w ∈ turnedWords.words ↔ w.reverse ∈ [[0x41], [0x41, 0x54]] := by
    intro w
    rw [show turnedWords.words = [[0x41], [0x54, 0x41]] by decide +kernel]
    simp [List.reverse_eq_iff]
  obtain ⟨hsame, -, hread⟩ := importImage_of_writer hcreate hcreate htextual
    (by decide +kernel) (rfl : (runHistory _ [.importWords [[0x54]]]).store = none)
    (fun _ _ => Iff.rfl) (.backwards _ hturned) himage hexpected
  obtain ⟨loaded, hloaded⟩ := hread (.inr isBuilt_turnedWords)
  obtain ⟨hwords, -, -, hsearch⟩ := hsame loaded hloaded _ hmore
  refine ⟨_, _, _, loaded, bytes, hcreate, rfl, rfl, himage, hloaded, ?_, ?_⟩
  -- The words and the search are those of a lexicon with the words imported as text.
  · rw [hwords]
    decide +kernel
  · rw [hsearch]
    decide +kernel

/-- A vocabulary that took over a dead end, and got the word `AT` behind it. -/
def deadEndWords : Vocabulary :=
  Vocabulary.empty.runSteps [.load Image.imageOfDeadEnd false none, .importWords [[0x41, 0x54]]]

/-- **A dead end that is too deep.** The word `TA` is handed over spelled backwards by a vocabulary
that has just this word. An image is written, and no lexicon reads it: the path to the dead end of
two letters became that of a word, and the other path has 65. -/
theorem importImage_of_dead_end :
    ∃ (lex₀ lex : Lexicon) (bytes : List UInt8), create "" twoLetters = .ok lex₀ ∧
      lex = lex₀.runHistory [.importWords [[0x54, 0x41]]] ∧
      lex.vocabulary.words = [[0x54, 0x41]] ∧ lex.vocabulary.IsWriter deadEndWords true ∧
      deadEndWords.image = .ok bytes ∧
      ∀ receiver : Lexicon,
        receiver.importImage bytes true (some (checksum bytes)) = .error .tooDeep := by
  have hsound : deadEndWords.IsSound := Vocabulary.isSound_empty.runSteps _
  have hwords : deadEndWords.words = [[0x41, 0x54]] := by decide +kernel
  -- The word AT was put in over dead ends, one of which is longer than an image may have.
  have hupper : deadEndWords.IsUpper := Vocabulary.isUpper_runSteps (by decide +kernel)
  have hdead : deadEndWords.forward.merge.root.edges.deadEnds =
      [List.replicate 64 0x42 ++ [0x54]] := by decide +kernel
  obtain ⟨bytes, himage⟩ := hsound.exists_image (by decide +kernel)
  have hdecode := hsound.decode_of_dead_end hupper himage hdead (by decide)
  have hwriter (v : Vocabulary) (hv : v.words = [[0x54, 0x41]]) : v.IsWriter deadEndWords true := by
    refine .backwards _ fun w => ?_
    rw [show Vocabulary.words (Vocabulary.empty.runSteps _) = _ from hwords, hv]
    simp [List.reverse_eq_iff]
  have hcreate : create "" twoLetters = .ok _ := rfl
  refine ⟨_, _, bytes, hcreate, rfl, by decide +kernel, hwriter _ (by decide +kernel), himage,
    fun receiver => ?_⟩
  exact importImage_of_error (Vocabulary.ofImage_of_decode_error hdecode (by simp) true)

end Lexicon

end WordStudy
