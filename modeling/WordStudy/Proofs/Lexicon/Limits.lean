import WordStudy.Proofs.Lexicon.Indexed
import WordStudy.Proofs.Lexicon.Interchange
import WordStudy.Settings.Load

/-!
# Limits of words

The settings say of which letters words are made and how long they may be. Word lists are held to
that, and images are not: **words beyond the limits are words of the last image**. The index and the
lexicon itself tell the same about the hooks of words within the alphabet, while a word with other
letters has hooks in the index alone.
-/

namespace WordStudy

/-- The word is made of the letters of the settings, and not too long for them. -/
structure Word.IsWithin (settings : Settings) (w : Word) : Prop where
  letters : ∀ b ∈ w, b ∈ Word.ofText settings.alphabet
  length : w.length ≤ settings.maxWordLength

/-- The words of the image that an operation imports, or the words of an earlier one. -/
def LexiconStep.imageWords (earlier : List Word) : LexiconStep → List Word
  | .importImage bytes backwards expected =>
    match Vocabulary.ofImage bytes backwards expected with
    | .ok v => v.words
    | .error _ => earlier
  | _ => earlier

/-- **The words of the last image** that was imported in a history. -/
def imageWords (steps : List LexiconStep) : List Word := steps.foldl LexiconStep.imageWords []

theorem imageWords_of_isTextual {steps : List LexiconStep}
    (h : ∀ step ∈ steps, step.isTextual = true) : imageWords steps = [] := by
  apply List.foldlRecOn (motive := fun words : List Word => words = [])
  · rfl
  · intro words hwords step hstep
    have htextual := h step hstep
    cases step with
    | importImage => cases htextual
    | _ => exact hwords

namespace Lexicon

/-! ## §1 Histories -/

/-- **Words are within the limits**, but for some that are foreign. -/
structure KeepsLimits (settings : Settings) (foreign : List Word) (lex : Lexicon) : Prop where
  sound : lex.vocabulary.IsSound
  alphabet : lex.alphabet = Word.ofText settings.alphabet
  maxWordLength : lex.maxWordLength = settings.maxWordLength
  within : ∀ w ∈ lex.vocabulary.words, w.IsWithin settings ∨ w ∈ foreign
  foreign : ∀ w ∈ foreign, w ∈ lex.vocabulary.words

variable {settings : Settings} {foreign : List Word} {lex : Lexicon}

theorem keepsLimits_create {name : String} (h : create name settings = .ok lex) :
    lex.KeepsLimits settings [] := by
  obtain ⟨bag, -, rfl⟩ := create_eq_ok h
  refine ⟨Vocabulary.isSound_empty, rfl, rfl, fun w hw => ?_, List.forall_mem_nil _⟩
  cases hw

theorem KeepsLimits.isWithin_of_admits (h : lex.KeepsLimits settings foreign) {entry : WordEntry}
    {w : Word} (hw : lex.admits entry = some w) : w.IsWithin settings := by
  obtain ⟨hspelled, hlength⟩ := Option.filter_eq_some_iff.mp hw
  refine ⟨?_, ?_⟩
  · rw [← h.alphabet]
    exact (Word.spelledIn_eq_some hspelled).2
  · rw [← h.maxWordLength]
    exact of_decide_eq_true hlength

theorem isKept_keepsLimits (settings : Settings) (foreign : List Word) :
    IsKept (KeepsLimits settings foreign) where
  add lex h entry w hw definition := by
    refine ⟨h.sound.add w, h.alphabet, h.maxWordLength, fun u hu => ?_, fun u hu => ?_⟩
    -- The word added is within the limits, as the import tests it first.
    · rcases mem_words_addWord h.sound hw definition hu with rfl | hold
      · exact .inl (h.isWithin_of_admits hw)
      · exact h.within u hold
    · exact (h.sound.mem_words_add w u).mpr (.inr (h.foreign u hu))
  merge lex h := by
    have hwords : lex.vocabulary.merge.words = lex.vocabulary.words := h.sound.words_merge
    refine ⟨h.sound.merge, h.alphabet, h.maxWordLength, fun w hw => ?_, fun w hw => ?_⟩
    · exact h.within w (hwords ▸ hw)
    · exact hwords.symm ▸ h.foreign w hw
  stems _ h _ := { h with }
  view _ h _ _ := { h with }

/-- **One operation**: the foreign words are those of the image at hand. -/
theorem KeepsLimits.perform (h : lex.KeepsLimits settings foreign) (step : LexiconStep) :
    (lex.perform step).KeepsLimits settings (step.imageWords foreign) := by
  have hkept (hload : ∀ bytes backwards expected, step ≠ .importImage bytes backwards expected) :
      (lex.perform step).KeepsLimits settings foreign := by
    apply (isKept_keepsLimits settings foreign).perform h
    exact fun bytes backwards expected hstep => absurd hstep (hload bytes backwards expected)
  cases step with
  | importImage bytes backwards expected =>
    show (lex.loadImage bytes backwards expected).KeepsLimits settings _
    cases hv : Vocabulary.ofImage bytes backwards expected with
    | error fault =>
      rw [loadImage, importImage_of_error hv, LexiconStep.imageWords, hv]
      exact h
    | ok v =>
      -- All words are those of the image, and each of them is foreign.
      rw [loadImage, importImage_of_ofImage hv, LexiconStep.imageWords, hv]
      exact ⟨Vocabulary.isSound_of_ofImage hv, h.alphabet, h.maxWordLength, fun _ hw => .inr hw,
        fun _ hw => hw⟩
  | _ => exact hkept (by simp)

theorem KeepsLimits.runHistory (h : lex.KeepsLimits settings foreign) (steps : List LexiconStep) :
    (lex.runHistory steps).KeepsLimits settings (steps.foldl LexiconStep.imageWords foreign) := by
  induction steps generalizing lex foreign with
  | nil => exact h
  | cons step steps ih => exact ih (h.perform step)

/-- **After texts alone**, all words are within the limits. -/
theorem isWithin_runTexts {name : String} (hcreate : create name settings = .ok lex)
    {steps : List LexiconStep} (htextual : ∀ step ∈ steps, step.isTextual = true) {w : Word}
    (hw : w ∈ (lex.runHistory steps).vocabulary.words) : w.IsWithin settings := by
  have hkeeps := (keepsLimits_create hcreate).runHistory steps
  rcases hkeeps.within w hw with hwithin | hforeign
  · exact hwithin
  · have hnone : steps.foldl LexiconStep.imageWords [] = [] := imageWords_of_isTextual htextual
    rw [hnone] at hforeign
    cases hforeign

/-! ## §2 Hooks -/

/-- **The flags of a row and the lexicon** tell the same of a word within the alphabet. A word with
other letters has flags as well, and belongs to no set. -/
theorem IsSound.member_eq_holds (h : lex.IsSound) {w : Word} (hw : w ∈ lex.vocabulary.words)
    (definitions : Bool) (references : List (String × Vocabulary)) {set : StudySet} {p : Predicate}
    (hp : RowQuery.hookFlags set = some p) :
    lex.member set w = (w.all lex.alphabet.contains &&
      p.holds ((lex.rowSources definitions references).rowFor w)) := by
  have hplain : w.IsPlain := (h.capitals w hw).isPlain
  have hempty : w.isEmpty = false := by
    rw [List.isEmpty_eq_false_iff]
    exact fun hnil => Edges.nil_notMem_words _ (hnil ▸ hw)
  rw [holds_hookFlags h hw definitions references hp, member, Word.spelledIn, hempty,
    hplain.isAscii_eq, hplain.upper_eq, Bool.not_true, Bool.or_false,
    if_neg Bool.false_ne_true]
  cases w.all lex.alphabet.contains with
  | true => rw [if_pos rfl, Option.any_some, Bool.true_and]
  | false => rw [if_neg Bool.false_ne_true, Option.any_none, Bool.false_and]

/-! ## §3 Checked settings -/

/-- **Settings that were checked** have an alphabet of capital letters. -/
theorem inCapitals_of_check (h : settings.check = .ok settings) :
    Word.InCapitals (Word.ofText settings.alphabet) := by
  unfold Settings.check at h
  dsimp only at h
  split at h
  · cases h
  · next hletters =>
    intro b hb
    simp only [Bool.or_eq_true, Bool.not_eq_true', not_or, Bool.not_eq_false] at hletters
    exact List.all_eq_true.mp hletters.2 b hb

/-- **Words beyond the limits are words of an image.** In a lexicon with checked settings and any
history, each word that is accepted is within the limits of the settings or came with the last
image, whose words are all accepted. Each has a row, whose flags tell of its hooks as the lexicon
does if it is within the alphabet; a word with other letters belongs to no set of hooks, whatever
the flags tell. -/
theorem limits_of_history {name : String} {lex₀ : Lexicon}
    (hcheck : settings.check = .ok settings) (hcreate : create name settings = .ok lex₀)
    (steps : List LexiconStep) :
    let lex := lex₀.runHistory steps
    (∀ w, lex.accepts w = true → w.upper.IsWithin settings ∨ w.upper ∈ imageWords steps) ∧
    (∀ w ∈ imageWords steps, lex.accepts w = true) ∧
    ∀ w, lex.accepts w = true → ∀ definitions references,
      (∃ row ∈ (lex.rowSources definitions references).rows, row.word = w.upper) ∧
      ∀ row ∈ (lex.rowSources definitions references).rows, row.word = w.upper →
        ∀ set p, RowQuery.hookFlags set = some p →
          lex.member set w =
            (w.upper.all (Word.ofText settings.alphabet).contains && p.holds row) := by
  intro lex
  have hfresh : lex₀.IsFresh := ⟨name, settings, hcreate, inCapitals_of_check hcheck⟩
  have hsound : lex.IsSound := hfresh.isSound.runHistory steps
  have hkeeps : lex.KeepsLimits settings (imageWords steps) :=
    (keepsLimits_create hcreate).runHistory steps
  have haccepts (w : Word) : lex.accepts w = true ↔ w.upper ∈ lex.vocabulary.words :=
    hsound.vocabulary.contains_iff w
  refine ⟨?_, ?_, ?_⟩
  · intro w hw
    exact hkeeps.within _ ((haccepts w).mp hw)
  · intro w hw
    have hmem := hkeeps.foreign w hw
    rw [haccepts, hsound.upper_eq hmem]
    exact hmem
  · intro w hw definitions references
    have hmem := (haccepts w).mp hw
    rw [RowSources.rows_eq_map]
    refine ⟨⟨_, List.mem_map_of_mem hmem, rfl⟩, ?_⟩
    intro row hrow hword set p hp
    obtain ⟨u, hu, rfl⟩ := List.mem_map.mp hrow
    obtain rfl : u = w.upper := hword
    -- A word in lower case belongs to the sets of its capitals.
    have hupper : lex.member set w = lex.member set w.upper := by
      rw [member, member, Word.spelledIn_upper]
    rw [hupper, hsound.member_eq_holds hmem definitions references hp, hkeeps.alphabet]

/-- Settings for the one word `A`. -/
def oneWord : Settings := { alphabet := "A", tiles := "", values := "", maxWordLength := 1 }

/-- An image of the words `AT` and `T`. -/
def foreignImage : List UInt8 :=
  Image.magic ++ [4, 0x400, 0xC41, 0x354, 0x354].flatMap Image.wordBytes

/-- Under settings for the word `A`, an image brings `AT`, which is accepted and belongs to no set
of hooks, although `T` is a word. -/
theorem limits_of_foreign_image :
    ∃ lex₀ lex : Lexicon, oneWord.check = .ok oneWord ∧ create "" oneWord = .ok lex₀ ∧
      lex = lex₀.runHistory [.importWords [[0x41]], .importImage foreignImage false none] ∧
      lex.accepts [0x41, 0x54] = true ∧ lex.accepts [0x54] = true ∧
      lex.member .frontHooks [0x41, 0x54] = false := by
  have hcreate : create "" oneWord = .ok _ := rfl
  refine ⟨_, _, rfl, hcreate, rfl, ?_⟩
  obtain ⟨-, himage, hhooks⟩ := limits_of_history (rfl : oneWord.check = .ok oneWord) hcreate
    [.importWords [[0x41]], .importImage foreignImage false none]
  have hword := himage [0x41, 0x54] (by decide +kernel)
  refine ⟨hword, himage [0x54] (by decide +kernel), ?_⟩
  obtain ⟨⟨row, hrow, heq⟩, hmember⟩ := hhooks _ hword true []
  rw [hmember row hrow heq .frontHooks _ rfl]
  rfl

/-- Under settings for the word `A`, an image brings `AT`: it is accepted, has a letter that is not
in the alphabet and is too long, and its row has a flag for a set that it does not belong to. -/
theorem accepts_of_foreign_image :
    ∃ lex₀ lex : Lexicon, oneWord.check = .ok oneWord ∧ create "" oneWord = .ok lex₀ ∧
      lex = lex₀.runHistory [.importImage foreignImage false none] ∧
      lex.accepts [0x41, 0x54] = true ∧
      (0x54 : UInt8) ∉ Word.ofText oneWord.alphabet ∧ ¬ 2 ≤ oneWord.maxWordLength ∧
      (∃ row ∈ (lex.rowSources false []).rows, row.word = [0x41, 0x54] ∧ row.isFrontHook = true) ∧
      lex.member .frontHooks [0x41, 0x54] = false := by
  refine ⟨_, _, rfl, rfl, rfl, ?_, ?_, ?_, ?_, ?_⟩
  · decide +kernel
  · decide +kernel
  · decide
  · decide +kernel
  · decide +kernel

end Lexicon

end WordStudy
