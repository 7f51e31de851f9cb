import WordStudy.Engine.Basic
import WordStudy.Proofs.Graph.Hooks
import WordStudy.Proofs.Lexicon.Cache
import WordStudy.Proofs.Lexicon.Counts
import WordStudy.Proofs.Lexicon.Definitions
import WordStudy.Proofs.Lexicon.Indexed

/-!
# Looking words up with and without a store

What is known of a word is read off its row, if there is a row, and is worked out from the
vocabulary, the counts and the definitions otherwise. Rows come from a cache or from the store. If
the store holds **the rows that are built for the lexicon**, both ways lead to the same answers for
every string, and looking words up, which fills the cache, never changes one.
-/

namespace WordStudy

namespace Lexicon

variable {lex : Lexicon}

/-! ## §1 Rows at hand -/

/-- The table of the store, if there is one that can be read. -/
def storedTable (lex : Lexicon) : Option AttributeTable := lex.store.bind AttributeStore.table?

/-- **The rows that the store and the cache have** are those that are known. -/
structure Knows (lex : Lexicon) (known : Word → Option Row) : Prop where
  stored : ∀ w, lex.storedTable.bind (·.row? w) = known w
  cached : ∀ w row, lex.cache.get? w = some row → known w = some row

/-- **Rows are known under their words**, which are in upper case and not empty. -/
def IsKeyed (known : Word → Option Row) : Prop :=
  ∀ w row, known w = some row → row.word = w ∧ w.upper = w ∧ w ≠ []

theorem storedTable_bind_row? (lex : Lexicon) (w : Word) :
    lex.storedTable.bind (·.row? w) = lex.store.bind (·.stored? w) := Option.bind_assoc ..

section Knows

variable {known : Word → Option Row} (hkeyed : IsKeyed known)

include hkeyed

/-- **Rows are known if the store has them** and the cache has rows of the store only. -/
theorem CachesItsRows.knows (h : lex.CachesItsRows)
    (hstored : ∀ w, lex.storedTable.bind (·.row? w) = known w) : lex.Knows known where
  stored := hstored
  cached := by
    intro w row hrow
    obtain ⟨hplace, v, hupper, hv⟩ := h w row hrow
    have hknown : known v = some row := by
      rw [← hstored, storedTable_bind_row?]
      exact hv
    have hword : row.word = v := (hkeyed v row hknown).1
    rw [hword, hupper, or_self] at hplace
    rw [hplace]
    exact hknown

variable (h : lex.Knows known)

include h

theorem Knows.cachesItsRows : lex.CachesItsRows := by
  intro w row hrow
  have hknown := h.cached w row hrow
  obtain ⟨hword, hupper, -⟩ := hkeyed w row hknown
  refine ⟨.inl hword.symm, w, hupper, ?_⟩
  rw [← storedTable_bind_row?, h.stored, hknown]

/-- **The row of a word is the known one**, whether it is in the cache or not. -/
theorem Knows.fst_row (w : Word) : (lex.row w).1 = known w.upper := by
  rw [(h.cachesItsRows hkeyed).fst_row, rowIn]
  split
  · next hempty =>
    rw [List.isEmpty_iff.mp hempty]
    cases hrow : known [] with
    | none => exact hrow.symm
    | some row => exact absurd rfl (hkeyed [] row hrow).2.2
  · rw [← storedTable_bind_row?, h.stored]

/-- **Questions leave the same rows known**, as many as are asked. -/
theorem Knows.runHistory {questions : List LexiconStep}
    (hquestions : ∀ step ∈ questions, step.isQuestion = true) :
    (lex.runHistory questions).Knows known ∧
      ∃ cache, lex.runHistory questions = { lex with cache } := by
  obtain ⟨cache, hcache⟩ := lex.runHistory_of_isQuestion hquestions
  refine ⟨((h.cachesItsRows hkeyed).runHistory questions).knows hkeyed ?_, cache, hcache⟩
  rw [hcache]
  exact h.stored

end Knows

end Lexicon

/-! ## §2 Answers about a word -/

/-- **What is told of a word.** -/
structure WordAnswers where
  anagrams : Nat
  frontHooks : String
  backHooks : String
  /-- The definition as it is stored. -/
  definition : Option String
  /-- The definition with its links resolved. -/
  resolved : Option String
  vowels : Nat
  distinct : Nat
  points : Nat
  isFrontHook : Bool
  isBackHook : Bool
  deriving DecidableEq, Repr

/-- The answers to all questions about a word. -/
def Engine.answers (e : Engine) (name : String) (w : Word) : WordAnswers where
  anagrams := (e.anagrams name w).1
  frontHooks := (e.frontHooks name w).1
  backHooks := (e.backHooks name w).1
  definition := (e.definition name w false).1
  resolved := (e.definition name w true).1
  vowels := (e.vowels name w).1
  distinct := (e.distinct name w).1
  points := (e.points name w).1
  isFrontHook := (e.isFrontHook name w).1
  isBackHook := (e.isBackHook name w).1

/-- The text that a row has for a definition; the empty one stands for none. -/
def Row.definition? (row : Row) : Option String :=
  if row.definition.isEmpty then none else some row.definition

namespace Lexicon

/-- The answers that a row gives, or those that are worked out if there is none. -/
def answersFrom (lex : Lexicon) (row? : Option Row) (w : Word) : WordAnswers where
  anagrams := row?.elim (lex.anagramCounts.count w) (·.anagrams)
  frontHooks := row?.elim (lex.vocabulary.frontHooks w) (·.frontHooks)
  backHooks := row?.elim (lex.vocabulary.backHooks w) (·.backHooks)
  definition := row?.elim (lex.definitions.text? w) (·.definition?)
  resolved := (row?.elim (lex.definitions.text? w) (·.definition?)).map lex.definitions.resolveLinks
  vowels := row?.elim w.vowelCount (·.vowels)
  distinct := row?.elim w.distinctCount (·.distinct)
  points := row?.elim (lex.bag.pointValue w) (·.points)
  isFrontHook := row?.elim (lex.member .frontHooks w) (·.isFrontHook)
  isBackHook := row?.elim (lex.member .backHooks w) (·.isBackHook)

/-- **Every question is answered from the row** of the word or without it. -/
theorem answers_eq {lex : Lexicon} {e : Engine} {name : String} (he : e.lexicon? name = some lex)
    (w : Word) : e.answers name w = lex.answersFrom (lex.row w).1 w := by
  unfold Engine.answers answersFrom
  simp only [Engine.anagrams, Engine.frontHooks, Engine.backHooks, Engine.definition, Engine.vowels,
    Engine.distinct, Engine.points, Engine.isFrontHook, Engine.isBackHook, Engine.fromRow, Engine.row,
    Engine.member, Engine.view, Engine.ask, he, anagrams, frontHooks, backHooks, definition, lookUp,
    Definitions.render, Option.elim_some]
  cases (lex.row w).1 with
  | none => simp
  | some row =>
    -- An empty text is no definition, with its links resolved or not.
    simp only [Row.definition?, Option.elim_some]
    split <;> simp

end Lexicon

/-! ## §3 Rows that are built -/

section Upper

theorem Word.vowelCount_upper (w : Word) : w.upper.vowelCount = w.vowelCount := by
  rw [vowelCount, upper, List.countP_map]
  congr 1
  funext b
  show isVowel (upperByte b) = isVowel b
  rw [isVowel, isVowel, upperByte_upperByte]

theorem Word.distinctCount_upper (w : Word) : w.upper.distinctCount = w.distinctCount := by
  rw [distinctCount, distinctCount, upper_upper]

theorem TileBag.pointValue_upper (bag : TileBag) (w : Word) :
    bag.pointValue w.upper = bag.pointValue w := by
  simp [pointValue, Word.upper, List.foldr_map, letterValue]

theorem Definitions.text?_upper (d : Definitions) (w : Word) : d.text? w.upper = d.text? w := by
  simp only [text?, senses, groups, Word.upper_upper]

end Upper

namespace Lexicon

variable {lex : Lexicon}

/-- A word of the vocabulary, in any case, is a hook word as the vocabulary tells. -/
theorem IsSpelled.member_hooks (hspelled : lex.IsSpelled) {w : Word}
    (hw : w.upper ∈ lex.vocabulary.words) :
    lex.member .frontHooks w = lex.vocabulary.isFrontHook w.upper ∧
      lex.member .backHooks w = lex.vocabulary.isBackHook w.upper := by
  have hword := hspelled _ hw
  have hascii : w.upper.isAscii = true := (Word.isPlain_of_spelledIn hword).1.isAscii_eq
  rw [Word.spelledIn_upper] at hword
  simp [member, hword, Classifier.member, hascii]

/-- **The row that is built for a word** gives the answers that are worked out without it. -/
theorem answersFrom_rowFor (hspelled : lex.IsSpelled) (hcounts : lex.CountsItsWords)
    (htelling : lex.definitions.IsTelling) (references : List (String × Vocabulary)) {w : Word}
    (hw : w.upper ∈ lex.vocabulary.words) :
    lex.answersFrom (some ((lex.rowSources true references).rowFor w.upper)) w =
      lex.answersFrom none w := by
  -- Each column of the row holds what is worked out without it.
  let row := (lex.rowSources true references).rowFor w.upper
  have hanagrams : row.anagrams = lex.anagramCounts.count w := by
    show (AnagramCounts.ofWords lex.vocabulary.words).count w.upper = _
    rw [(AnagramCounts.areOf_ofWords _).count_eq, hcounts.count_eq, Word.alphagram_upper]
  have hdefinition : row.definition? = lex.definitions.text? w := by
    have hne := htelling.text?_ne w
    show (if ((lex.definitions.text? w.upper).getD "").isEmpty then none
      else some ((lex.definitions.text? w.upper).getD "")) = _
    rw [Definitions.text?_upper]
    cases htext : lex.definitions.text? w with
    | none => rfl
    -- A definition is never empty, so an empty column means that there is none.
    | some text =>
      rw [htext] at hne
      have hsome : text.isEmpty = false := by
        rw [Bool.eq_false_iff, ne_eq, String.isEmpty_iff]
        exact fun heq => hne (congrArg some heq)
      simp [hsome]
  obtain ⟨hfront, hback⟩ := hspelled.member_hooks hw
  have hvowels : row.vowels = w.vowelCount := w.vowelCount_upper
  have hdistinct : row.distinct = w.distinctCount := w.distinctCount_upper
  have hpoints : row.points = lex.bag.pointValue w := lex.bag.pointValue_upper w
  have hfrontHooks : row.frontHooks = lex.vocabulary.frontHooks w := lex.vocabulary.frontHooks_upper w
  have hbackHooks : row.backHooks = lex.vocabulary.backHooks w := lex.vocabulary.backHooks_upper w
  show lex.answersFrom (some row) w = _
  simp only [answersFrom, Option.elim_some, Option.elim_none, hanagrams, hdefinition, hvowels,
    hdistinct, hpoints, hfrontHooks, hbackHooks, hfront, hback]
  rfl

/-- The row that is built for a word of the vocabulary; there is none for any other. -/
theorem find?_rows (s : RowSources) (w : Word) :
    s.rows.find? (·.word == w) = if w ∈ s.vocabulary.words then some (s.rowFor w) else none := by
  rw [RowSources.rows_eq_map, List.find?_map]
  -- The word is found under itself, as no two words are the same.
  have hfind : s.vocabulary.words.find? (fun v => v == w) =
      if w ∈ s.vocabulary.words then some w else none := by
    split
    · next hw =>
      obtain ⟨v, hv⟩ := Option.isSome_iff_exists.mp
        (List.find?_isSome.mpr ⟨w, hw, beq_iff_eq.mpr rfl⟩ :
          (s.vocabulary.words.find? fun v => v == w).isSome = true)
      have hfound := List.find?_some hv
      rw [hv, beq_iff_eq.mp hfound]
    · next hw => exact List.find?_eq_none.mpr fun v hv heq => hw (beq_iff_eq.mp heq ▸ hv)
  show (s.vocabulary.words.find? fun v => v == w).map s.rowFor = _
  rw [hfind]
  split <;> rfl

theorem IsSound.isKeyed_rows (h : lex.IsSound) (references : List (String × Vocabulary)) :
    IsKeyed fun w => (lex.rowSources true references).rows.find? (·.word == w) := by
  intro w row hrow
  dsimp only at hrow
  rw [find?_rows] at hrow
  split at hrow
  · next hw =>
    cases hrow
    refine ⟨rfl, h.upper_eq hw, ?_⟩
    rintro rfl
    exact Edges.nil_notMem_words _ hw
  · cases hrow

/-- **What is told without a store** of a word that the lexicon accepts. -/
theorem IsSound.answersFrom_none (h : lex.IsSound) (hspelled : lex.IsSpelled)
    (hcounts : lex.CountsItsWords) {references : List (String × Vocabulary)}
    (hfits : ∀ w ∈ lex.vocabulary.words, ((lex.rowSources true references).rowFor w).FitsColumns)
    {w : Word} (hw : lex.accepts w = true) :
    (lex.answersFrom none w).anagrams = lex.vocabulary.words.countP (·.isPerm w.upper) ∧
    (lex.answersFrom none w).frontHooks = lettersWith (fun l => lex.accepts (l :: w)) ∧
    (lex.answersFrom none w).backHooks = lettersWith (fun l => lex.accepts (w ++ [l])) ∧
    (lex.answersFrom none w).isFrontHook = (1 < w.length && lex.accepts w.tail) ∧
    (lex.answersFrom none w).isBackHook = (1 < w.length && lex.accepts w.dropLast) := by
  have hmem : w.upper ∈ lex.vocabulary.words := (h.vocabulary.contains_iff w).mp hw
  obtain ⟨hfront, hback⟩ := hspelled.member_hooks hmem
  refine ⟨?_, rfl, h.vocabulary.backHooks_eq h.capitals w, ?_, ?_⟩
  · show lex.anagramCounts.count w = _
    rw [← h.anagrams_rowFor hfits hmem, hcounts.count_eq, ← Word.alphagram_upper]
    exact (AnagramCounts.areOf_ofWords _).count_eq w.upper |>.symm
  · exact hfront.trans (lex.vocabulary.isFrontHook_upper w)
  · exact hback.trans (lex.vocabulary.isBackHook_upper w)

/-! ## §4 With and without a store -/

/-- **Attaching the rows of a lexicon changes no answer.** After any history without images, and
after any searches and look-ups behind it, every question about every string is answered alike with
a store of the rows that are built for the lexicon and without a store. Of a word that the lexicon
accepts, the answers are the number of words with its letters, the letters that make a word in front
of it and behind it, in order, and whether it has two letters or more and is a word without its
first or last one. -/
theorem answers_eq_of_rows {lex₀ : Lexicon} (hfresh : lex₀.IsFresh) {steps : List LexiconStep}
    (htextual : ∀ step ∈ steps, step.isTextual = true) {store : AttributeStore}
    {t : AttributeTable} (htable : store.table? = some t) {references : List (String × Vocabulary)}
    (hrows : ∀ w, t.row? w =
      ((lex₀.runHistory steps).rowSources true references).rows.find? (·.word == w))
    {questions questions' : List LexiconStep}
    (hquestions : ∀ step ∈ questions, step.isQuestion = true)
    (hquestions' : ∀ step ∈ questions', step.isQuestion = true) {e e' : Engine}
    {name name' : String}
    (he : e.lexicon? name = some (((lex₀.runHistory steps).attach store).runHistory questions))
    (he' : e'.lexicon? name' = some ((lex₀.runHistory steps).detach.runHistory questions'))
    (w : Word) :
    e.answers name w = e'.answers name' w ∧
    ((lex₀.runHistory steps).accepts w = true →
      (e.answers name w).anagrams =
        (lex₀.runHistory steps).vocabulary.words.countP (·.isPerm w.upper) ∧
      (e.answers name w).frontHooks = lettersWith (fun l => (lex₀.runHistory steps).accepts (l :: w)) ∧
      (e.answers name w).backHooks = lettersWith (fun l => (lex₀.runHistory steps).accepts (w ++ [l])) ∧
      (e.answers name w).isFrontHook =
        (1 < w.length && (lex₀.runHistory steps).accepts w.tail) ∧
      (e.answers name w).isBackHook =
        (1 < w.length && (lex₀.runHistory steps).accepts w.dropLast)) := by
  have hsound := hfresh.isSound.runHistory steps
  have hspelled := hfresh.isSpelled.runHistory hfresh.isSound htextual
  obtain ⟨_, _, hcreate, -⟩ := id hfresh
  have hcounts := (countsItsWords_create hcreate).runHistory hfresh.isSound.vocabulary steps
  have htelling := isKept_isTelling.runTexts htextual (isTelling_create hcreate)
  generalize lex₀.runHistory steps = lex at *
  let known (w : Word) : Option Row := (lex.rowSources true references).rows.find? (·.word == w)
  -- With the store, the rows known are those built; without it, there are none.
  have hattached : (lex.attach store).Knows known := by
    refine ⟨?_, by simp [attach, RowCache.get?, RowCache.empty]⟩
    intro w
    show (store.table?.bind (·.row? w)) = known w
    rw [htable]
    exact hrows w
  have hdetached : lex.detach.Knows fun _ => none :=
    ⟨fun w => rfl, by simp [detach, RowCache.get?, RowCache.empty]⟩
  have hnone : IsKeyed fun _ => none := by
    intro w row hrow
    cases hrow
  have hanswers : e.answers name w = lex.answersFrom none w := by
    obtain ⟨hknows, cache, hcache⟩ :=
      hattached.runHistory (hsound.isKeyed_rows references) hquestions
    rw [answers_eq he, hknows.fst_row (hsound.isKeyed_rows references), hcache]
    show lex.answersFrom (known w.upper) w = _
    rw [show known w.upper = _ from find?_rows _ _]
    split
    · next hw => exact answersFrom_rowFor hspelled hcounts htelling references hw
    · rfl
  have hanswers' : e'.answers name' w = lex.answersFrom none w := by
    obtain ⟨hknows, cache, hcache⟩ := hdetached.runHistory hnone hquestions'
    rw [answers_eq he', hknows.fst_row hnone, hcache]
    rfl
  refine ⟨hanswers.trans hanswers'.symm, ?_⟩
  intro hw
  rw [hanswers]
  -- The table holds each row, so that its numbers fit the columns.
  have hfits : ∀ w ∈ lex.vocabulary.words,
      ((lex.rowSources true references).rowFor w).FitsColumns := by
    intro w hw
    apply t.fits w
    exact (hrows w).trans ((find?_rows _ w).trans (if_pos hw))
  exact hsound.answersFrom_none hspelled hcounts hfits hw

/-- A table that the rows are put into tells the row of each word, if their numbers fit the columns. -/
theorem row?_insert_rows {s : RowSources} (hfits : ∀ row ∈ s.rows, row.FitsColumns) (w : Word) :
    (AttributeTable.empty.insert s.rows).row? w = s.rows.find? (·.word == w) := by
  have hinsert := s.getElem?_insert_rowFor s.vocabulary.words AttributeTable.empty w
  rw [find?_rows]
  rw [← s.rows_eq_map] at hinsert
  rw [AttributeTable.row?, hinsert]
  split
  · next hw =>
    have hrow : (s.rowFor w).FitsColumns := hfits _ (List.mem_map_of_mem hw)
    rw [hrow.cut_eq]
  · simp [AttributeTable.empty]

theorem lexicon?_put (e : Engine) (name : String) (lex : Lexicon) :
    (e.put name lex).lexicon? name = some lex := Std.TreeMap.getElem?_insert_self

/-- `AT`, which has a definition, `TA` and `A` are imported. -/
def threeWords : List LexiconStep :=
  [.importEntries [⟨[0x41, 0x54], some "by [prep]"⟩, ⟨[0x54, 0x41], none⟩, ⟨[0x41], none⟩] true]

/-- With `AT`, `TA` and `A`, the answers about `tA` are the same with a store and without one, also
when the row of `AT` was looked at before: two words have its letters, nothing can be put in front of
it or behind it, and only `A` without the first letter is a word. -/
theorem answers_of_three_words :
    ∃ (lex₀ lex : Lexicon) (store : AttributeStore) (e e' : Engine), lex₀.IsFresh ∧
      lex = lex₀.runHistory threeWords ∧
      store = .inMemory (AttributeTable.empty.insert (lex.rowSources true []).rows) ∧
      e = (Engine.create twoLetters).put "" ((lex.attach store).runHistory [.row [0x61, 0x54]]) ∧
      e' = (Engine.create twoLetters).put "" (lex.detach.runHistory []) ∧
      e.answers "" [0x74, 0x41] = e'.answers "" [0x74, 0x41] ∧
      (e.answers "" [0x74, 0x41]).anagrams = 2 ∧ (e.answers "" [0x74, 0x41]).frontHooks = "" ∧
      (e.answers "" [0x74, 0x41]).backHooks = "" ∧
      (e.answers "" [0x74, 0x41]).isFrontHook = true ∧
      (e.answers "" [0x74, 0x41]).isBackHook = false := by
  have hfresh : IsFresh _ := ⟨"", twoLetters, rfl, by decide⟩
  refine ⟨_, _, _, _, _, hfresh, rfl, rfl, rfl, rfl, ?_⟩
  have htextual : ∀ step ∈ threeWords, step.isTextual = true := by
    simp [threeWords, LexiconStep.isTextual]
  have hquestion : ∀ step ∈ [LexiconStep.row [0x61, 0x54]], step.isQuestion = true := by
    simp [LexiconStep.isQuestion]
  -- One of the three words has its row cached by a question that came before.
  obtain ⟨hsame, hfacts⟩ := answers_eq_of_rows hfresh htextual
    (rfl : (AttributeStore.inMemory _).table? = some _)
    (row?_insert_rows (fitsColumns_rows (by decide +kernel) (by decide +kernel))) hquestion
    (List.forall_mem_nil _) (lexicon?_put (Engine.create twoLetters) "" _)
    (lexicon?_put (Engine.create twoLetters) "" _) [0x74, 0x41]
  obtain ⟨hanagrams, hfront, hback, hisFront, hisBack⟩ := hfacts (by decide +kernel)
  refine ⟨hsame, ?_, ?_, ?_, ?_, ?_⟩
  · rw [hanagrams]
    decide +kernel
  · rw [hfront]
    decide +kernel
  · rw [hback]
    decide +kernel
  · rw [hisFront]
    decide +kernel
  · rw [hisBack]
    decide +kernel

end Lexicon

end WordStudy
