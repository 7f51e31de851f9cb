import WordStudy.Proofs.Graph.Marks
import WordStudy.Proofs.Graph.Vocabulary
import WordStudy.Proofs.Match.Case
import WordStudy.Proofs.Text.Utf8

/-!
# Words with other characters

A vocabulary takes any text as a word, and a search gives back the texts that were added, in upper
case. But a word is marked byte by byte, and **each byte is written as the character of its
number**. That is the character it stands for only in ASCII. A word with any other character comes
back from a marked search as another, longer word.
-/

namespace WordStudy

open Text

/-! ## §1 Bytes as characters -/

/-- A byte that is not ASCII takes two bytes as a character of its own. -/
theorem length_utf8EncodeChar_charOf (b : UInt8) :
    (String.utf8EncodeChar (charOf b)).length = if b < 0x80 then 1 else 2 := by
  refine byte_forall
    (p := fun b => (String.utf8EncodeChar (charOf b)).length = if b < 0x80 then 1 else 2) ?_ b
  decide +kernel

theorem utf8EncodeChar_charOf {b : UInt8} (h : b < 0x80) :
    String.utf8EncodeChar (charOf b) = [b] := by
  revert h
  refine byte_forall (p := fun b => b < 0x80 → String.utf8EncodeChar (charOf b) = [b]) ?_ b
  decide +kernel

/-- The characters of a byte in either case have one upper case. -/
theorem toUpper_charOf_marked {b : UInt8} (h : upperByte b = b) (literal : Bool) :
    (charOf (if literal then b else lowerByte b)).toUpper = charOf b := by
  revert h literal
  refine byte_forall (p := fun b => upperByte b = b → ∀ literal : Bool,
    (charOf (if literal then b else lowerByte b)).toUpper = charOf b) ?_ b
  decide +kernel

namespace Word

theorem length_encode_map_charOf (w : Word) :
    (Utf8.encode (w.map charOf)).length = w.length + w.countP (0x80 ≤ ·) := by
  induction w with
  | nil => rfl
  | cons b w ih =>
    rw [List.map_cons, Utf8.encode_cons, List.length_append, ih, length_utf8EncodeChar_charOf,
      List.length_cons, List.countP_cons]
    by_cases hb : b < 0x80
    · simp only [hb, if_true, UInt8.not_le.mpr hb, decide_false, Bool.false_eq_true, if_false]
      omega
    · simp only [hb, if_false, UInt8.not_lt.mp hb, decide_true, if_true]
      omega

/-- **The characters of its bytes spell a word** only if it is ASCII. -/
theorem encode_map_charOf_iff (w : Word) :
    Utf8.encode (w.map charOf) = w ↔ w.isAscii = true := by
  constructor
  · intro heq
    -- Each byte that is not ASCII would make the text longer than the word.
    have hlength := (length_encode_map_charOf w).symm.trans (congrArg List.length heq)
    have hnone : w.countP (0x80 ≤ ·) = 0 := by omega
    refine List.all_eq_true.mpr fun b hb => decide_eq_true (UInt8.not_le.mp ?_)
    simpa using List.countP_eq_zero.mp hnone b hb
  · intro hascii
    have hbytes : ∀ b ∈ w, String.utf8EncodeChar (charOf b) = [b] := fun b hb =>
      utf8EncodeChar_charOf (of_decide_eq_true (List.all_eq_true.mp hascii b hb))
    rw [Utf8.encode, List.flatMap_map, List.flatMap_congr hbytes, List.flatMap_singleton']

/-! ## §2 Words that are texts -/

/-- **The bytes are those of a text.** -/
def IsText (w : Word) : Prop := ∃ text, w = ofText text

@[simp] theorem text_ofText (text : String) : (ofText text).text = text := by
  rw [Word.text, ofText, Utf8.textOf, Utf8.bytesOf, Utf8.characters_encode, String.ofList_toList]

/-- The text of a word has no replacements if the word is a text. -/
theorem IsText.ofText_text {w : Word} (h : w.IsText) : ofText w.text = w := by
  obtain ⟨text, rfl⟩ := h
  rw [text_ofText]

theorem IsText.upper {w : Word} (h : w.IsText) : w.upper.IsText := by
  obtain ⟨text, rfl⟩ := h
  exact ⟨text.toUpper, (ofText_toUpper text).symm⟩

theorem IsText.text_upper {w : Word} (h : w.IsText) : w.upper.text = w.text.toUpper := by
  obtain ⟨text, rfl⟩ := h
  rw [← ofText_toUpper, text_ofText, text_ofText]

theorem InCapitals.isText {w : Word} (h : w.InCapitals) : w.IsText :=
  ⟨String.ofList (w.map charOf), by
    rw [ofText, Utf8.bytesOf, String.toList_ofList,
      (encode_map_charOf_iff w).mpr h.isPlain.isAscii_eq]⟩

end Word

namespace GraphQuery

/-! ## §3 Marked words -/

/-- A marked word is the text of its bytes, each in the case that its mark says. -/
theorem markWildcards_eq_encode (q : GraphQuery) (w : Word) :
    q.markWildcards w = Utf8.encode ((w.zip (q.literalLetters w)).map fun (b, literal) =>
      charOf (if literal then b else lowerByte b)) := by
  rw [markWildcards, Utf8.encode, List.flatMap_map]
  rfl

theorem isText_markWildcards (q : GraphQuery) (w : Word) : (q.markWildcards w).IsText :=
  ⟨String.ofList _, by
    rw [markWildcards_eq_encode, Word.ofText, Utf8.bytesOf, String.toList_ofList]⟩

/-- **In upper case, a marked word has the characters of its bytes.** -/
theorem toUpper_text_markWildcards (q : GraphQuery) {w : Word} (h : w.upper = w) :
    (q.markWildcards w).text.toUpper = String.ofList (w.map charOf) := by
  have hbytes : ∀ b ∈ w, upperByte b = b := by
    have hmap : w.map upperByte = w.map id := by rw [List.map_id]; exact h
    exact List.map_inj_left.mp hmap
  have hmarked : ∀ x ∈ w.zip (q.literalLetters w),
      (Char.toUpper ∘ fun x : UInt8 × Bool => charOf (if x.2 then x.1 else lowerByte x.1)) x =
        (charOf ∘ Prod.fst) x := fun x hx =>
    toUpper_charOf_marked (hbytes x.1 (List.of_mem_zip hx).1) x.2
  rw [markWildcards_eq_encode, Word.text, Utf8.textOf, Utf8.characters_encode, ← String.toList_inj,
    String.toUpper, String.toList_map, String.toList_ofList, String.toList_ofList, List.map_map,
    List.map_congr_left hmarked, ← List.map_map,
    List.map_fst_zip (Nat.le_of_eq (length_literalLetters q w).symm)]

end GraphQuery

/-! ## §4 Histories -/

/-- The words that a change adds. -/
def VocabularyStep.added : VocabularyStep → List Word
  | .add w => [w]
  | .importWords words => words
  | .merge | .load _ _ _ => []

namespace Vocabulary

section Kept

variable {p : Word → Prop} (hcapitals : ∀ w : Word, w.InCapitals → p w)

include hcapitals

/-- **What a change keeps** of all words: what holds of words of capital letters, and of each word
that is added, in upper case. -/
theorem IsSound.forall_mem_words_perform {v : Vocabulary} (h : v.IsSound)
    (hwords : ∀ w ∈ v.words, p w) {step : VocabularyStep} (hadded : ∀ w ∈ step.added, p w.upper) :
    ∀ w ∈ (v.perform step).words, p w := by
  have hadd {v : Vocabulary} (h : v.IsSound) (hwords : ∀ w ∈ v.words, p w) {w : Word}
      (hw : p w.upper) : ∀ u ∈ (v.add w).1.words, p u := by
    intro u hu
    rcases (h.mem_words_add w u).mp hu with ⟨rfl, -⟩ | hmem
    · exact hw
    · exact hwords u hmem
  cases step with
  | add w => exact hadd h hwords (hadded w (by simp [VocabularyStep.added]))
  | importWords words =>
    -- The words are added one by one, and the merge behind them changes none.
    have hall := addAll_induction (p := fun v => v.IsSound ∧ ∀ w ∈ v.words, p w) words ⟨h, hwords⟩
      fun v hv w hw => ⟨hv.1.add w, hadd hv.1 hv.2 (hadded w hw)⟩
    have hmerged : (v.importWords words).1.words = (v.addAll words).1.words := hall.1.words_merge
    rw [Vocabulary.perform, hmerged]
    exact hall.2
  | merge =>
    rw [Vocabulary.perform, h.words_merge]
    exact hwords
  | load bytes backwards expected =>
    simp only [Vocabulary.perform, Vocabulary.load]
    split
    · next loaded hload => exact fun w hw => hcapitals w (inCapitals_of_ofImage hload hw)
    · exact hwords

theorem forall_mem_words_runSteps (steps : List VocabularyStep)
    (hadded : ∀ step ∈ steps, ∀ w ∈ step.added, p w.upper) :
    ∀ w ∈ (empty.runSteps steps).words, p w := by
  -- Later changes begin with any sound vocabulary of such words.
  suffices hrun : ∀ v : Vocabulary, v.IsSound → (∀ w ∈ v.words, p w) →
      ∀ w ∈ (v.runSteps steps).words, p w from
    hrun empty isSound_empty (by simp [words, empty, WordGraph.words, WordGraph.empty, Edges.words])
  induction steps with
  | nil => exact fun v _ hwords => hwords
  | cons step steps ih =>
    intro v h hwords
    obtain ⟨hstep, hsteps⟩ := List.forall_mem_cons.mp hadded
    exact ih hsteps (v.perform step) (h.perform step)
      (h.forall_mem_words_perform hcapitals hwords hstep)

end Kept

/-! ## §5 Marked searches -/

theorem length_searchMarked (v : Vocabulary) (conditions : List Condition) :
    (v.searchMarked conditions).length = (v.search conditions).length := by
  unfold searchMarked search
  split
  · rw [List.length_map]
  · rfl

/-- **Each word of a marked search** is a word found, marked by a query. -/
theorem mem_zip_searchMarked {v : Vocabulary} {conditions : List Condition} {w m : Word}
    (h : (w, m) ∈ (v.search conditions).zip (v.searchMarked conditions)) :
    w ∈ v.search conditions ∧ ∃ q : GraphQuery, m = q.markWildcards w := by
  refine ⟨(List.of_mem_zip h).1, ?_⟩
  unfold searchMarked search at h
  split at h
  · next q hq =>
    obtain ⟨i, hi, hpair⟩ := List.mem_iff_getElem.mp h
    rw [List.getElem_zip, List.getElem_map] at hpair
    cases hpair
    exact ⟨q, rfl⟩
  · simp at h

/-- Words added as texts are texts, and a search finds them as such. -/
theorem isText_of_mem_search {steps : List VocabularyStep}
    (htexts : ∀ step ∈ steps, ∀ w ∈ step.added, w.IsText) {conditions : List Condition} {w : Word}
    (hw : w ∈ (empty.runSteps steps).search conditions) : w.IsText ∧ w.upper = w := by
  rw [(isSound_empty.runSteps steps).search_eq_filter] at hw
  exact forall_mem_words_runSteps (p := fun w => w.IsText ∧ w.upper = w)
    (fun w h => ⟨h.isText, h.isPlain.upper_eq⟩) steps
    (fun step hstep w hadded => ⟨(htexts step hstep w hadded).upper, w.upper_upper⟩)
    w (List.mem_filter.mp hw).1

/-- **A marked search among any texts.** Let the words added to a vocabulary be texts of any
characters. Then a marked search finds as many words as the search, whatever the conditions, and the
words of both are texts, shown without replacements. In upper case, a marked word has at each place
the character whose number is the byte of the word found there. So it is that word but for case
exactly if the word is ASCII. -/
theorem searchMarked_of_texts (steps : List VocabularyStep) (conditions : List Condition)
    (htexts : ∀ step ∈ steps, ∀ w ∈ step.added, w.IsText) :
    ((empty.runSteps steps).searchMarked conditions).length =
        ((empty.runSteps steps).search conditions).length ∧
      ∀ w m, (w, m) ∈ ((empty.runSteps steps).search conditions).zip
          ((empty.runSteps steps).searchMarked conditions) →
        Word.ofText w.text = w ∧ Word.ofText m.text = m ∧
          m.text.toUpper = String.ofList (w.map charOf) ∧
          (m.text.toUpper = w.text.toUpper ↔ w.isAscii = true) := by
  refine ⟨length_searchMarked _ conditions, fun w m hpair => ?_⟩
  obtain ⟨hw, q, rfl⟩ := mem_zip_searchMarked hpair
  obtain ⟨htext, hupper⟩ := isText_of_mem_search htexts hw
  have hmarked := q.toUpper_text_markWildcards hupper
  -- A word in upper case has a text in upper case.
  have hself : w.text.toUpper = w.text := by rw [← htext.text_upper, hupper]
  refine ⟨htext.ofText_text, (q.isText_markWildcards w).ofText_text, hmarked, ?_⟩
  rw [hmarked, hself, ← w.encode_map_charOf_iff]
  constructor
  · intro heq
    have hbytes := congrArg Word.ofText heq
    rwa [htext.ofText_text, Word.ofText, Utf8.bytesOf, String.toList_ofList] at hbytes
  · intro heq
    rw [Word.text, Utf8.textOf]
    nth_rewrite 2 [← heq]
    rw [Utf8.characters_encode]

/-- Of the words `cab` and `café`, a marked search for `ca*` gives the first in another case only.
-/
theorem searchMarked_of_cab :
    ∃ steps conditions m, (∀ step ∈ steps, ∀ w ∈ step.added, w.IsText) ∧
      (empty.runSteps steps).search conditions = [Word.ofText "CAB", Word.ofText "CAFé"] ∧
      (Word.ofText "CAB", m) ∈ ((empty.runSteps steps).search conditions).zip
        ((empty.runSteps steps).searchMarked conditions) ∧
      m.text.toUpper = (Word.ofText "CAB").text.toUpper := by
  let steps := [VocabularyStep.add (Word.ofText "cab"), .importWords [Word.ofText "café"]]
  let conditions := [Condition.pattern "ca*" false]
  have htexts : ∀ step ∈ steps, ∀ w ∈ step.added, w.IsText := by
    simp [steps, VocabularyStep.added, Word.IsText]
  have hpair : (Word.ofText "CAB", Word.ofText "CAb") ∈
      ((empty.runSteps steps).search conditions).zip
        ((empty.runSteps steps).searchMarked conditions) := by decide +kernel
  obtain ⟨-, -, -, hcase⟩ := (searchMarked_of_texts steps conditions htexts).2 _ _ hpair
  exact ⟨steps, conditions, _, htexts, by decide +kernel, hpair, hcase.mpr (by decide +kernel)⟩

/-- The word `CAFÉ` is marked as another word, in any case: its last character has two bytes. -/
theorem searchMarked_of_cafe :
    ∃ v : Vocabulary, v = empty.runSteps [.add (Word.ofText "CAFÉ")] ∧
      (v.search [.pattern "CAF*" false]).map Word.text = ["CAFÉ"] ∧
      (v.searchMarked [.pattern "CAF*" false]).map Word.text = ["CAFÃ\u0089"] ∧
      "CAFÃ\u0089".toUpper ≠ "CAFÉ".toUpper :=
  ⟨_, rfl, by decide +kernel, by decide +kernel, by decide +kernel⟩

end Vocabulary

end WordStudy
