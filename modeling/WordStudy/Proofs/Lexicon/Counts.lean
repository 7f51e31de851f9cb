import WordStudy.Proofs.Attributes.Rows
import WordStudy.Proofs.Lexicon.History

/-!
# Counts of anagrams along a history

Anagrams are counted as words are added, and counted anew when an image replaces the words. At any
time, what is kept for an alphagram is **the number of words that have it**, in 32 bits.
-/

namespace WordStudy

namespace Vocabulary

variable {v : Vocabulary}

theorem add_of_not_new {w : Word} (h : (v.add w).2 = false) : (v.add w).1 = v := by
  unfold add at h ⊢
  split
  · next heq => simp [heq] at h
  · rfl

theorem contains_of_new {w : Word} (h : (v.add w).2 = true) :
    w.upper ≠ [] ∧ v.forward.contains w.upper = false := by
  rw [← WordGraph.insert_isNew]
  unfold add at h
  split at h
  · next heq => rw [heq]
  · cases h

/-- **A new word** is one more beside those listed. -/
theorem IsSound.words_add_perm (h : v.IsSound) {w : Word} (hnew : (v.add w).2 = true) :
    (v.add w).1.words.Perm (w.upper :: v.words) := by
  obtain ⟨hne, hcontains⟩ := contains_of_new hnew
  have hnotMem : w.upper ∉ v.words := by
    rw [words, ← h.forward.contains_iff, hcontains]
    exact Bool.false_ne_true
  apply (List.perm_ext_iff_of_nodup (h.add w).forward.sorted.ascending_words.nodup
    (List.nodup_cons.mpr ⟨hnotMem, h.forward.sorted.ascending_words.nodup⟩)).mpr
  intro u
  show u ∈ (v.add w).1.words ↔ _
  rw [h.mem_words_add, List.mem_cons]
  simp [hne]

end Vocabulary

namespace Lexicon

/-- **The counts are those of the words.** -/
def CountsItsWords (lex : Lexicon) : Prop := lex.anagramCounts.AreOf lex.vocabulary.words

theorem countsItsWords_create {name : String} {settings : Settings} {lex : Lexicon}
    (h : create name settings = .ok lex) : lex.CountsItsWords := by
  obtain ⟨bag, -, rfl⟩ := create_eq_ok h
  exact AnagramCounts.areOf_empty

theorem CountsItsWords.addWord {lex : Lexicon} (hsound : lex.vocabulary.IsSound)
    (h : lex.CountsItsWords) (w : Word) (definition : Option String) :
    (lex.addWord w definition).CountsItsWords := by
  show (if (lex.vocabulary.add w).2 = true then lex.anagramCounts.add w
    else lex.anagramCounts).AreOf (lex.vocabulary.add w).1.words
  split
  · next hnew =>
    -- A word counts for its alphagram in either case.
    have hadd : (lex.anagramCounts.add w).AreOf (w.upper :: lex.vocabulary.words) := by
      have hupper := AnagramCounts.AreOf.add h w.upper
      rwa [AnagramCounts.add, Word.alphagram_upper] at hupper
    exact hadd.perm (hsound.words_add_perm hnew).symm
  · next hold =>
    rw [Vocabulary.add_of_not_new (Bool.eq_false_iff.mpr hold)]
    exact h

theorem isKept_countsItsWords : IsKept fun lex => lex.vocabulary.IsSound ∧ lex.CountsItsWords where
  add lex hlex entry w hw definition :=
    ⟨hlex.1.add w, hlex.2.addWord hlex.1 w definition⟩
  merge lex hlex := by
    refine ⟨hlex.1.merge, ?_⟩
    show lex.anagramCounts.AreOf lex.vocabulary.merge.words
    rw [hlex.1.words_merge]
    exact hlex.2
  stems lex hlex stems := hlex
  view lex hlex store cache := hlex

/-- **The counts are right after any history.** -/
theorem CountsItsWords.runHistory {lex : Lexicon} (hsound : lex.vocabulary.IsSound)
    (h : lex.CountsItsWords) (steps : List LexiconStep) : (lex.runHistory steps).CountsItsWords := by
  refine (isKept_countsItsWords.runHistory ?_ ⟨hsound, h⟩).2
  intro bytes backwards expected _ lex' hlex
  rcases lex'.loadImage_eq bytes backwards expected with heq | ⟨v, hv, heq⟩
  · rw [heq]
    exact hlex
  · rw [heq]
    exact ⟨Vocabulary.isSound_of_ofImage hv, AnagramCounts.areOf_ofWords v.words⟩

end Lexicon

end WordStudy
