import WordStudy.Proofs.Graph.FirstPath
import WordStudy.Proofs.Lexicon.Limits

/-!
# The image that a lexicon writes of itself

The writer of images takes words of any length, and the reader follows no path of more than
`maxDepth` edges. So the settings decide whether a lexicon can read what it wrote: if they allow no
longer words, it always can, and **what is read has the same words**. If they do, a word that is too
long may keep the whole image from being read, and does so for sure if it is the first.
-/

namespace WordStudy

open Text

namespace Vocabulary

variable {v : Vocabulary}

/-- **A first word that is too long** keeps the image from being read. -/
theorem IsWhole.decode_of_long_first (h : v.IsWhole) (hcapitals : ∀ w ∈ v.words, w.InCapitals)
    {bytes : List UInt8} (himage : v.image = .ok bytes) {w : Word}
    (hfirst : v.words.head? = some w) (hlong : Image.maxDepth < w.length) :
    Image.decode bytes = .error .tooDeep := by
  have hmerge : v.forward.merge.words = v.words := h.sound.words_merge
  rw [← hmerge] at hcapitals hfirst
  exact Image.decode_of_long_first h.merge.sound.forward h.merge.live hcapitals himage hfirst hlong

end Vocabulary

namespace Lexicon

theorem isWhole_runTexts {name : String} {settings : Settings} {lex₀ : Lexicon}
    (hcreate : create name settings = .ok lex₀) {steps : List LexiconStep}
    (htextual : ∀ step ∈ steps, step.isTextual = true) :
    (lex₀.runHistory steps).vocabulary.IsWhole :=
  isKept_isWhole.runTexts htextual (vocabulary_of_create hcreate ▸ Vocabulary.isWhole_empty)

/-- **An image that can be decoded** to the words of a vocabulary makes any lexicon one of these
words. -/
theorem exists_importImage_of_decode {v : Vocabulary} (hv : v.IsSound) {bytes : List UInt8}
    {g : WordGraph} (hdecode : Image.decode bytes = .ok g) (hsame : g.words = v.words)
    (receiver : Lexicon) :
    ∃ loaded, receiver.importImage bytes false (some (checksum bytes)) = .ok loaded ∧
      loaded.vocabulary.words = v.words ∧ (∀ w, loaded.accepts w = v.contains w) ∧
      loaded.wordCount = g.wordCount := by
  have hexpected : ∀ sum ∈ some (checksum bytes), sum = checksum bytes := by simp
  have hofImage := Vocabulary.ofImage_of_decode hdecode hexpected false
  have hread := Vocabulary.isSound_of_ofImage hofImage
  refine ⟨_, importImage_of_ofImage hofImage, hsame, fun w => ?_, rfl⟩
  apply hread.forward.contains_congr hv.forward
  exact iff_of_eq (congrArg (w.upper ∈ ·) hsame)

/-- The words of texts are counted, each once. -/
theorem wordCount_runTexts {lex₀ : Lexicon} (hfresh : lex₀.IsFresh) {steps : List LexiconStep}
    (htextual : ∀ step ∈ steps, step.isTextual = true) :
    (lex₀.runHistory steps).wordCount = (lex₀.runHistory steps).vocabulary.words.length := by
  have hsound : lex₀.IsSound := hfresh.isSound
  obtain ⟨name, settings, hcreate, -⟩ := hfresh
  have hexact : (lex₀.runHistory steps).CountsExactly := by
    apply isKept_countsExactly.runTexts htextual
    refine ⟨hsound.vocabulary, ?_⟩
    rw [wordCount, vocabulary_of_create hcreate]
    rfl
  exact hexact.2

/-- **Reading back what was written.** Checked settings, texts alone, and an image that is written
of the words. With the right checksum and as they are, any lexicon that reads the image has just
these words and as many, as far as 64 bits hold their number. It is refused only because a word is
too long for the reader, which the settings can exclude, and always if the first word is. -/
theorem importImage_of_own_image {name : String} {settings : Settings} {lex₀ : Lexicon}
    (hcheck : settings.check = .ok settings) (hcreate : create name settings = .ok lex₀)
    {steps : List LexiconStep} (htextual : ∀ step ∈ steps, step.isTextual = true)
    {bytes : List UInt8} (himage : (lex₀.runHistory steps).vocabulary.image = .ok bytes)
    (receiver : Lexicon) :
    let lex := lex₀.runHistory steps
    let result := receiver.importImage bytes false (some (checksum bytes))
    (∀ loaded, result = .ok loaded →
      loaded.vocabulary.words = lex.vocabulary.words ∧
      (∀ w, loaded.accepts w = lex.accepts w) ∧
      loaded.wordCount = min lex.wordCount maxWord64) ∧
    (∀ fault, result = .error fault →
      fault = .tooDeep ∧ ∃ w ∈ lex.vocabulary.words, Image.maxDepth < w.length) ∧
    (settings.maxWordLength ≤ Image.maxDepth → ∃ loaded, result = .ok loaded) ∧
    (∀ w, lex.vocabulary.words.head? = some w → Image.maxDepth < w.length →
      result = .error .tooDeep) := by
  intro lex result
  -- What the texts leave: a graph without dead ends, of words in capitals.
  have hfresh : lex₀.IsFresh := ⟨name, settings, hcreate, inCapitals_of_check hcheck⟩
  have hsound : lex.IsSound := hfresh.isSound.runHistory steps
  have hwhole : lex.vocabulary.IsWhole := isWhole_runTexts hcreate htextual
  have hrefused (hdecode : Image.decode bytes = .error .tooDeep) : result = .error .tooDeep :=
    importImage_of_error (Vocabulary.ofImage_of_decode_error hdecode (by simp) false)
  have hlongFirst (w : Word) (hw : lex.vocabulary.words.head? = some w)
      (hlong : Image.maxDepth < w.length) : result = .error .tooDeep :=
    hrefused (hwhole.decode_of_long_first hsound.capitals himage hw hlong)
  rcases hwhole.decode_image hsound.capitals himage with
    ⟨g, hdecode, hsame, hcount⟩ | ⟨hdecode, w, hw, hlong⟩
  · -- It is read.
    obtain ⟨loaded, hloaded, hwords, haccepts, hcounted⟩ :=
      exists_importImage_of_decode hwhole.sound hdecode hsame receiver
    have hresult : result = .ok loaded := hloaded
    refine ⟨fun loaded' hloaded' => ?_, fun fault hfault => ?_, fun _ => ⟨loaded, hresult⟩,
      hlongFirst⟩
    · obtain rfl := Except.ok.inj (hresult.symm.trans hloaded')
      refine ⟨hwords, haccepts, ?_⟩
      rw [hcounted, wordCount_runTexts hfresh htextual]
      exact hcount
    · cases hresult.symm.trans hfault
  · -- It is refused.
    have hresult : result = .error .tooDeep := hrefused hdecode
    refine ⟨fun loaded hloaded => ?_, fun fault hfault => ?_, fun hshort => ?_, hlongFirst⟩
    · cases hresult.symm.trans hloaded
    · cases hresult.symm.trans hfault
      exact ⟨rfl, w, hw, hlong⟩
    · -- Texts bring no word that is longer than the settings allow.
      have hwithin := isWithin_runTexts hcreate htextual hw
      exact absurd (Nat.le_trans hwithin.length hshort) (Nat.not_le_of_lt hlong)

/-- `AT` and `TA` are written, and read back by any lexicon. -/
theorem importImage_of_two_words :
    ∃ (lex₀ lex : Lexicon) (bytes : List UInt8), create "" twoLetters = .ok lex₀ ∧
      lex = lex₀.runHistory [.importWords [[0x54, 0x41], [0x41, 0x54]]] ∧
      lex.vocabulary.image = .ok bytes ∧
      ∀ receiver : Lexicon, ∃ loaded : Lexicon,
        receiver.importImage bytes false (some (checksum bytes)) = .ok loaded ∧
        loaded.vocabulary.words = [[0x41, 0x54], [0x54, 0x41]] ∧ loaded.wordCount = 2 := by
  have hcreate : create "" twoLetters = .ok _ := rfl
  have htextual : ∀ step ∈ [LexiconStep.importWords [[0x54, 0x41], [0x41, 0x54]]],
      step.isTextual = true := by simp [LexiconStep.isTextual]
  obtain ⟨bytes, himage⟩ := (isWhole_runTexts hcreate htextual).sound.exists_image (by decide +kernel)
  refine ⟨_, _, bytes, hcreate, rfl, himage, fun receiver => ?_⟩
  obtain ⟨hread, -, hshort, -⟩ := importImage_of_own_image (rfl : twoLetters.check = .ok twoLetters)
    hcreate htextual himage receiver
  -- Both words are short, so the image is read back.
  obtain ⟨loaded, hloaded⟩ := hshort (by decide)
  obtain ⟨hwords, -, hcount⟩ := hread loaded hloaded
  refine ⟨loaded, hloaded, ?_, ?_⟩
  · rw [hwords]
    decide +kernel
  · rw [hcount]
    decide +kernel

/-- Settings for longer words of the one letter `A`. -/
def longWords : Settings := { alphabet := "A", tiles := "", values := "", maxWordLength := 70 }

/-- Settings for words of 70 letters: a word of 65 letters is written, and no lexicon reads it. -/
theorem importImage_of_long_word :
    ∃ (lex₀ lex : Lexicon) (bytes : List UInt8), longWords.check = .ok longWords ∧
      create "" longWords = .ok lex₀ ∧
      lex = lex₀.runHistory [.importWords [List.replicate 65 0x41]] ∧
      lex.vocabulary.words = [List.replicate 65 0x41] ∧ lex.vocabulary.image = .ok bytes ∧
      ∀ receiver : Lexicon, receiver.importImage bytes false (some (checksum bytes)) =
        .error .tooDeep := by
  have hcreate : create "" longWords = .ok _ := rfl
  have htextual : ∀ step ∈ [LexiconStep.importWords [List.replicate 65 0x41]],
      step.isTextual = true := by simp [LexiconStep.isTextual]
  have hwhole := isWhole_runTexts hcreate htextual
  obtain ⟨bytes, himage⟩ := hwhole.sound.exists_image (by decide +kernel)
  refine ⟨_, _, bytes, rfl, hcreate, rfl, by decide +kernel, himage, fun receiver => ?_⟩
  have hdecode := hwhole.decode_of_long_first (w := List.replicate 65 0x41) (by decide +kernel)
    himage (by decide +kernel) (by decide)
  exact importImage_of_error (Vocabulary.ofImage_of_decode_error hdecode (by simp) false)

end Lexicon

end WordStudy
