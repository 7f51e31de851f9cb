import WordStudy.Proofs.Access.Rows
import WordStudy.Proofs.Access.Search
import WordStudy.Proofs.Lexicon.Limits

/-!
# No faults in any history

Edges with capital letters are what searches rely on, and ASCII words are what rows rely on. Both hold
**after any history of a lexicon with checked settings**: the letters of imported words are in an
alphabet of capitals, the reader of images refuses any other letter, and nothing else changes a
graph.
-/

namespace WordStudy

namespace Lexicon

/-- **Imports keep the edges of sound graphs in capital letters**, and nothing else touches them. -/
theorem isKept_upper : IsKept fun lex =>
    lex.vocabulary.IsSound ∧ Word.InCapitals lex.alphabet ∧ lex.vocabulary.IsUpper where
  add lex := by
    rintro ⟨hsound, halphabet, hupper⟩ entry w hw definition
    refine ⟨hsound.add w, halphabet, hupper.add ?_⟩
    rw [upper_of_admits hw]
    exact fun b hb => halphabet b ((Word.spelledIn_eq_some (spelledIn_of_admits hw)).2 b hb)
  merge lex := by
    rintro ⟨hsound, halphabet, hupper⟩
    exact ⟨hsound.merge, halphabet, hupper.merge hsound⟩
  stems lex hlex stems := hlex
  view lex hlex store cache := hlex

/-- **After any history**, all edges of both graphs have capital letters. -/
theorem IsFresh.isUpper_runHistory {lex : Lexicon} (h : lex.IsFresh) (steps : List LexiconStep) :
    (lex.runHistory steps).vocabulary.IsUpper := by
  have hempty : lex.vocabulary = .empty := by
    obtain ⟨name, settings, hcreate, -⟩ := h
    exact vocabulary_of_create hcreate
  have hupper : lex.vocabulary.IsUpper := hempty ▸ Vocabulary.isUpper_empty
  -- Only an image brings a graph that was not made here, and its letters were tested when it was
  -- read.
  refine (isKept_upper.runHistory ?_ ⟨h.isSound.vocabulary, h.isSound.alphabet, hupper⟩).2.2
  rintro bytes backwards expected - lex' ⟨hsound, halphabet, hupper⟩
  rcases lex'.loadImage_eq bytes backwards expected with heq | ⟨v, hv, heq⟩
  · rw [heq]
    exact ⟨hsound, halphabet, hupper⟩
  · rw [heq]
    exact ⟨Vocabulary.isSound_of_ofImage hv, halphabet, Vocabulary.isUpper_of_ofImage hv⟩

/-- **No access is impossible.** In a lexicon with checked settings and any history, every word of
either graph has letters, all of them capitals. No search makes a fault, whatever its conditions are;
nor does a test of a study set or a sum of points for any text; nor do the rows of its words, whatever
else they are built from. Other look-ups have no tables of letters, cut no text and shift no word. -/
theorem checked_of_history {name : String} {settings : Settings} {lex₀ : Lexicon}
    (hcheck : settings.check = .ok settings) (hcreate : create name settings = .ok lex₀)
    (steps : List LexiconStep) :
    let lex := lex₀.runHistory steps
    (∀ g, g = lex.vocabulary.forward ∨ lex.vocabulary.backward = some g →
      ∀ w ∈ g.words, w ≠ [] ∧ w.InCapitals) ∧
    (∀ spec capitals, Checked.search lex spec capitals = .ok (lex.search spec capitals)) ∧
    (∀ spec, Checked.searchLists lex spec = .ok (lex.searchLists spec)) ∧
    (∀ set (text : String), Checked.memberOf lex set (Word.ofText text) =
      .ok (lex.member set (Word.ofText text))) ∧
    (∀ text : String, Checked.pointValue lex.bag.tables (Word.ofText text) =
      .ok (lex.bag.pointValue (Word.ofText text))) ∧
    ∀ sources : RowSources, sources.vocabulary = lex.vocabulary →
      Checked.rows sources = .ok sources.rows := by
  intro lex
  have hfresh : lex₀.IsFresh := ⟨name, settings, hcreate, inCapitals_of_check hcheck⟩
  have hupper : lex.vocabulary.IsUpper := hfresh.isUpper_runHistory steps
  -- Edges of capitals spell words of capitals, and none of them is empty.
  have hwords {g : WordGraph} (hg : g.root.edges.Upper) : ∀ w ∈ g.words, w ≠ [] ∧ w.InCapitals :=
    fun w hw => ⟨fun hnil => Edges.nil_notMem_words _ (hnil ▸ hw), hg.inCapitals w hw⟩
  refine ⟨?_, Checked.search_eq hupper, Checked.searchLists_eq lex,
    fun set text => Checked.memberOf_eq lex set _, fun text => Checked.pointValue_eq lex.bag _, ?_⟩
  · rintro g (rfl | hg)
    · exact hwords hupper.forward
    · exact hwords (hupper.backward g hg)
  · intro sources hsources
    refine Checked.rows_eq sources fun w hw => ?_
    rw [hsources] at hw
    exact (hwords hupper.forward w hw).2.isPlain.isAscii_eq

/-- Settings for words of `A` and `T`, with some tiles of them. -/
def tiledLetters : Settings :=
  { alphabet := "AT", tiles := "A:9 T:6 _:2", values := "A:1 T:1", maxWordLength := 3 }

/-- An image of `TA` and `T`, spelled backwards, is read, and `A` is added. Without a fault, a pattern
is followed along the turned graph, a rack spells `TA`, which is told to be a hook word and worth two
points, and a text of one longer character belongs to no set. -/
theorem checked_of_turned_image :
    ∃ lex₀ lex : Lexicon, tiledLetters.check = .ok tiledLetters ∧ create "" tiledLetters = .ok lex₀ ∧
      lex = lex₀.runHistory [.importImage foreignImage true none, .importWords [[0x41]]] ∧
      lex.vocabulary.words = [[0x41], [0x54], [0x54, 0x41]] ∧
      Checked.search lex (.all [.pattern "*a" false]) true =
        .ok (lex.search (.all [.pattern "*a" false]) true) ∧
      (∃ result, Checked.search lex (.all [.anagram "?[at]" false]) true = .ok result ∧
        result.1 = [[0x54, 0x41]]) ∧
      Checked.memberOf lex .hookWords (Word.ofText "ta") = .ok true ∧
      Checked.memberOf lex .hookWords (Word.ofText "Ä") = .ok false ∧
      Checked.pointValue lex.bag.tables (Word.ofText "ta") = .ok 2 := by
  have hcreate : create "" tiledLetters = .ok _ := rfl
  obtain ⟨-, hsearch, -, hmember, hpoints, -⟩ :=
    checked_of_history (rfl : tiledLetters.check = .ok tiledLetters) hcreate
      [.importImage foreignImage true none, .importWords [[0x41]]]
  refine ⟨_, _, rfl, hcreate, rfl, ?_, hsearch _ _, ⟨_, hsearch _ _, ?_⟩, (hmember _ _).trans ?_,
    (hmember _ _).trans ?_, (hpoints _).trans ?_⟩
  · decide +kernel
  · decide +kernel
  · decide +kernel
  · decide +kernel
  · decide +kernel

end Lexicon

end WordStudy
