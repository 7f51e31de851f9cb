import WordStudy.Proofs.Graph.Doubling
import WordStudy.Proofs.Lexicon.Authority
import WordStudy.Proofs.Lexicon.Cache
import WordStudy.Proofs.Lexicon.Interchange
import WordStudy.Proofs.Word.Alphagram

/-!
# Anagrams and words are counted right

Lists add to the counts word by word, and only words that are new; an image that is read has its words
counted anew, and one that is refused leaves the counts alone. Whatever is done in whatever order,
**the counts never part from the words**: for any letters, as many words are counted as are
rearrangements of them, and nothing is stored for letters of which no word is made. This ends where
there are more words than numbers of 32 or of 64 bits can tell, which takes a small image.
-/

namespace WordStudy

open Text

/-! ## §1 Counts that are stored -/

/-- What is stored for an alphagram is the number of its words, if 32 bits can tell it. -/
theorem AnagramCounts.map_stored? {n : Nat} (h : n ≤ maxWord32) :
    (stored? n).map UInt32.toNat = if n = 0 then none else some n := by
  unfold stored?
  split
  · rfl
  · rw [Option.map_some, UInt32.toNat_ofNat_of_lt' (Nat.lt_succ_of_le h)]

/-- No more can be stored than 32 bits can tell. -/
theorem AnagramCounts.map_stored?_ne {n : Nat} (h : maxWord32 < n) :
    (stored? n).map UInt32.toNat ≠ some n := by
  unfold stored?
  split
  · simp
  · intro heq
    have hsmall := UInt32.toNat_lt (.ofNat n)
    have hvalue : (UInt32.ofNat n).toNat = n := by simpa using heq
    rw [hvalue] at hsmall
    exact absurd hsmall (Nat.not_lt.mpr h)

namespace Lexicon

variable {lex : Lexicon}

/-- **The number of words that are made of just these letters**, in whatever case they are given. -/
def rearrangements (lex : Lexicon) (w : Word) : Nat :=
  lex.vocabulary.words.countP (·.isPerm w.upper)

/-- Of plain words, those with the same alphagram are the rearrangements. -/
theorem IsPlain.countP_alphagram (h : lex.IsPlain) (w : Word) :
    lex.vocabulary.words.countP (·.alphagram == w.alphagram) = lex.rearrangements w := by
  apply List.countP_congr
  intro v hv
  rw [beq_iff_eq, (h.plain v hv).alphagram_eq_iff_perm, List.isPerm_iff]

/-- **What is stored for letters** is what so many rearrangements come to. -/
theorem IsPlain.getElem?_counts (h : lex.IsPlain) (hcounts : lex.CountsItsWords) (w : Word) :
    lex.anagramCounts.counts[w.alphagram]? = AnagramCounts.stored? (lex.rearrangements w) := by
  rw [hcounts w.alphagram, h.countP_alphagram]

/-- **Without a row for the word**, the number of anagrams is the count, in 32 bits. -/
theorem IsPlain.fst_anagrams (h : lex.IsPlain) (hcounts : lex.CountsItsWords) {w : Word}
    (hrow : (lex.row w).1 = none) :
    (lex.anagrams w).1 = lex.rearrangements w % (maxWord32 + 1) := by
  show (lex.row w).1.elim (lex.anagramCounts.count w) (·.anagrams) = _
  rw [hrow, Option.elim_none, hcounts.count_eq, h.countP_alphagram]

end Lexicon

/-! ## §2 Words that are counted -/

namespace Vocabulary

variable {v : Vocabulary}

/-- Adding a word takes no word away. -/
theorem IsSound.length_words_le_add (h : v.IsSound) (w : Word) :
    v.words.length ≤ (v.add w).1.words.length := by
  cases hnew : (v.add w).2 with
  | true =>
    rw [(h.words_add_perm hnew).length_eq]
    exact Nat.le_succ _
  | false => rw [add_of_not_new hnew]

/-- **The words of an image are counted**, as far as a number of 64 bits goes. -/
theorem wordCount_of_ofImage {bytes : List UInt8} {backwards : Bool} {expected : Option (BitVec 16)}
    (h : ofImage bytes backwards expected = .ok v) (hfew : v.words.length ≤ maxWord64) :
    v.wordCount = v.words.length := by
  obtain ⟨g, hdecode, rfl⟩ := ofImage_eq_ok h
  cases backwards with
  | true => exact wordCount_turned g
  | false => exact (Image.describes_of_decode hdecode).wordCount_eq.trans (Nat.min_eq_left hfew)

end Vocabulary

namespace Lexicon

/-- **The word count is exact** as long as a number of 64 bits can tell it. -/
def CountsWords (lex : Lexicon) : Prop :=
  lex.vocabulary.IsSound ∧
    (lex.vocabulary.words.length ≤ maxWord64 → lex.wordCount = lex.vocabulary.words.length)

theorem isKept_countsWords : IsKept CountsWords where
  add lex h entry w hw definition := by
    refine ⟨h.1.add w, ?_⟩
    intro hfew
    -- There were not more words before than there are now.
    have hcount := h.2 (Nat.le_trans (h.1.length_words_le_add w) hfew)
    exact h.1.wordCount_add hcount w
  merge lex h := by
    have hwords := h.1.words_merge
    refine ⟨h.1.merge, ?_⟩
    intro hfew
    rw [hwords] at hfew ⊢
    exact h.2 hfew
  stems lex h stems := h
  view lex h store cache := h

theorem countsWords_runHistory {name : String} {settings : Settings} {lex₀ : Lexicon}
    (hcreate : create name settings = .ok lex₀) (steps : List LexiconStep) :
    (lex₀.runHistory steps).CountsWords := by
  -- Only an image brings in words that are not added one by one.
  apply isKept_countsWords.runHistory
  · intro bytes backwards expected _ lex h
    rcases lex.loadImage_eq bytes backwards expected with heq | ⟨v, hv, heq⟩
    · rw [heq]
      exact h
    · rw [heq]
      exact ⟨Vocabulary.isSound_of_ofImage hv, Vocabulary.wordCount_of_ofImage hv⟩
  · have hempty := vocabulary_of_create hcreate
    refine ⟨hempty ▸ Vocabulary.isSound_empty, ?_⟩
    intro _
    rw [wordCount, hempty]
    rfl

/-! ## §3 After any history -/

/-- Without a store there is no row, not even in the cache. -/
theorem fst_row_runHistory {name : String} {settings : Settings} {lex₀ : Lexicon}
    (hcreate : create name settings = .ok lex₀) (steps : List LexiconStep)
    (hnone : (lex₀.runHistory steps).store = none) (w : Word) :
    ((lex₀.runHistory steps).row w).1 = none := by
  obtain ⟨-, hcache₀⟩ := view_of_create hcreate
  rw [((cachesItsRows_of_empty hcache₀).runHistory steps).fst_row, hnone, rowIn]
  split <;> rfl

theorem countsItsWords_runHistory {name : String} {settings : Settings} {lex₀ : Lexicon}
    (hcreate : create name settings = .ok lex₀) (steps : List LexiconStep) :
    (lex₀.runHistory steps).CountsItsWords :=
  (countsItsWords_create hcreate).runHistory
    (vocabulary_of_create hcreate ▸ Vocabulary.isSound_empty) steps

/-- **The counts never part from the words.** Whatever was imported, also images that were refused,
attached, given up and searched for: for any letters, the count that is stored for their alphagram is
the number of words that are rearrangements of them, and none is stored if there is no such word, as
long as a number of 32 bits can tell how many there are. The words are listed without repeats and are
those that are accepted, and they are as many as the word count says, as long as a number of 64 bits
can tell it. Without a store, the number of anagrams that is told of any string is the number of its
rearrangements, as far as 32 bits go. -/
theorem counts_runHistory {name : String} {settings : Settings} {lex₀ : Lexicon}
    (hcreate : create name settings = .ok lex₀) (steps : List LexiconStep) :
    (∀ w : Word, (lex₀.runHistory steps).rearrangements w ≤ maxWord32 →
      ((lex₀.runHistory steps).anagramCounts.counts[w.alphagram]?).map UInt32.toNat =
        if (lex₀.runHistory steps).rearrangements w = 0 then none
        else some ((lex₀.runHistory steps).rearrangements w)) ∧
    (lex₀.runHistory steps).vocabulary.words.Nodup ∧
    (∀ w, (lex₀.runHistory steps).accepts w = true ↔
      w.upper ∈ (lex₀.runHistory steps).vocabulary.words) ∧
    ((lex₀.runHistory steps).vocabulary.words.length ≤ maxWord64 →
      (lex₀.runHistory steps).wordCount = (lex₀.runHistory steps).vocabulary.words.length) ∧
    ((lex₀.runHistory steps).store = none →
      ∀ w, (lex₀.runHistory steps).rearrangements w ≤ maxWord32 →
        ((lex₀.runHistory steps).anagrams w).1 = (lex₀.runHistory steps).rearrangements w) := by
  have hplain := isPlain_runHistory hcreate steps
  have hwords := countsWords_runHistory hcreate steps
  have hcounts := countsItsWords_runHistory hcreate steps
  have hrow := fst_row_runHistory hcreate steps
  generalize lex₀.runHistory steps = lex at *
  refine ⟨?_, hplain.vocabulary.forward.sorted.ascending_words.nodup, hplain.vocabulary.contains_iff,
    hwords.2, ?_⟩
  · intro w hfew
    rw [hplain.getElem?_counts hcounts, AnagramCounts.map_stored? hfew]
  · intro hnone w hfew
    rw [hplain.fst_anagrams hcounts (hrow hnone w), Nat.mod_eq_of_lt (Nat.lt_succ_of_le hfew)]

/-- An image of `AT` and `BT` replaces `TA`, which is imported anew along with `AT`, and a second image
is refused. -/
def mixedImports : List LexiconStep :=
  [.importWords [[0x54, 0x41]], .importImage WordGraph.imageOfTwo false none,
    .importWords [[0x54, 0x41], [0x41, 0x54], [0x54, 0x41]], .importImage [] true none]

/-- Two words have the letters of `tA`, none has those of `tt`, and three words are counted. -/
theorem counts_of_mixed_imports :
    ∃ lex₀ : Lexicon, create "" twoLetters = .ok lex₀ ∧
      ((lex₀.runHistory mixedImports).anagramCounts.counts[Word.alphagram [0x74, 0x41]]?).map
        UInt32.toNat = some 2 ∧
      ((lex₀.runHistory mixedImports).anagramCounts.counts[Word.alphagram [0x74, 0x74]]?).map
        UInt32.toNat = none ∧
      (lex₀.runHistory mixedImports).wordCount = 3 ∧
      ((lex₀.runHistory mixedImports).anagrams [0x74, 0x41]).1 = 2 := by
  have hcreate : create "" twoLetters = .ok _ := rfl
  obtain ⟨hstored, -, -, hwords, hanagrams⟩ := counts_runHistory hcreate mixedImports
  refine ⟨_, hcreate, ?_, ?_, ?_, ?_⟩
  · rw [hstored _ (by decide +kernel)]
    decide +kernel
  · rw [hstored _ (by decide +kernel)]
    decide +kernel
  · rw [hwords (by decide +kernel)]
    decide +kernel
  · rw [hanagrams (by decide +kernel) _ (by decide +kernel)]
    decide +kernel

/-! ## §4 Too many words -/

/-- The letters `A` and `B` in turn. -/
def inTurn : Nat → Word
  | 0 => []
  | n + 1 => 0x41 :: 0x42 :: inTurn n

theorem upper_inTurn (n : Nat) : (inTurn n).upper = inTurn n := by
  induction n with
  | zero => rfl
  | succ n ih =>
    rw [inTurn, Word.upper, List.map_cons, List.map_cons]
    exact congrArg (0x41 :: 0x42 :: ·) ih

/-- Words that are put together of `AB` and `BA` are rearrangements of the letters in turn. -/
theorem perm_inTurn (n : Nat) : ∀ w ∈ choices [0x41, 0x42] [0x42, 0x41] n, w.Perm (inTurn n) := by
  apply forall_mem_choices (p := fun n w => w.Perm (inTurn n)) (List.Perm.refl [])
  intro n w hw
  exact ⟨(hw.cons _).cons _, ((hw.cons _).cons _).trans (.swap ..)⟩

/-- A graph of all words of so many letters that are `A` or `B` has **a word for each number** of so
many bits, and for each number of half as many bits a rearrangement of the letters in turn. -/
theorem two_pow_le_of_mem_words {g : WordGraph} {size : Nat}
    (h : ∀ w : Word, w.length = size → (∀ l ∈ w, l = 0x41 ∨ l = 0x42) → w ∈ g.words) {n : Nat}
    (hn : n * 2 = size) :
    2 ^ size ≤ g.words.length ∧ 2 ^ n ≤ g.words.countP (·.isPerm (inTurn n)) := by
  -- Choosing one of two pieces at each turn writes words of both letters only.
  have hmem {u v : Word} (hu : ∀ l ∈ u, l = 0x41 ∨ l = 0x42) (hv : ∀ l ∈ v, l = 0x41 ∨ l = 0x42)
      (hlength : u.length = v.length) {k : Nat} (hk : k * u.length = size) :
      ∀ w ∈ choices u v k, w ∈ g.words := by
    have hpieces := forall_mem_choices (u := u) (v := v)
      (p := fun k w => w.length = k * u.length ∧ ∀ l ∈ w, l = 0x41 ∨ l = 0x42) (by simp) (by
        rintro k w ⟨hw, hall⟩
        rw [List.length_append, List.length_append, List.forall_mem_append, List.forall_mem_append,
          hw, ← hlength, Nat.succ_mul, Nat.add_comm]
        exact ⟨⟨rfl, hu, hall⟩, rfl, hv, hall⟩) k
    exact fun w hw => h w ((hpieces w hw).1.trans hk) (hpieces w hw).2
  -- One letter at a time gives all words; pairs in either order give rearrangements.
  constructor
  · rw [← List.countP_true]
    exact two_pow_le_countP (u := [0x41]) (v := [0x42]) rfl (by decide) fun w hw =>
      ⟨hmem (u := [0x41]) (v := [0x42]) (by simp) (by simp) rfl (Nat.mul_one size) w hw, rfl⟩
  · exact two_pow_le_countP (u := [0x41, 0x42]) (v := [0x42, 0x41]) rfl (by decide) fun w hw =>
      ⟨hmem (u := [0x41, 0x42]) (v := [0x42, 0x41]) (by simp) (by simp) rfl hn w hw,
        List.isPerm_iff.mpr (perm_inTurn n w hw)⟩

/-- The image of all words of 64 letters that are `A` or `B` is accepted. Neither the count that is
stored for 32 letters of either kind, nor the number of anagrams that is told of them, is the number
of their rearrangements, nor is the word count the number of the words. -/
theorem counts_of_doubling :
    ∃ (lex₀ lex : Lexicon) (w : Word), create "" twoLetters = .ok lex₀ ∧
      lex = lex₀.runHistory [.importImage Image.doubling false none] ∧ lex.store = none ∧
      (lex.anagramCounts.counts[w.alphagram]?).map UInt32.toNat ≠ some (lex.rearrangements w) ∧
      (lex.anagrams w).1 ≠ lex.rearrangements w ∧
      lex.wordCount ≠ lex.vocabulary.words.length := by
  obtain ⟨g, hread, hwords⟩ := Image.exists_decode_doubling
  generalize Image.doubling = bytes at *
  -- The numbers are known by these bounds only, so that they are not evaluated.
  obtain ⟨n, hn, hhalf⟩ : ∃ n, n * 2 = Image.maxDepth ∧ maxWord32 < 2 ^ n := ⟨32, by decide⟩
  have hwhole : maxWord64 < 2 ^ Image.maxDepth := by decide
  obtain ⟨hmany, hperms⟩ := two_pow_le_of_mem_words hwords hn
  have hcreate : create "" twoLetters = .ok _ := rfl
  have hplain := isPlain_runHistory hcreate [.importImage bytes false none]
  have hcounts := countsItsWords_runHistory hcreate [.importImage bytes false none]
  have hrow := fst_row_runHistory hcreate [.importImage bytes false none]
  -- A store is not attached, so that the counts alone answer.
  refine ⟨_, _, inTurn n, hcreate, rfl, ?_⟩
  have himport (lex : Lexicon) : lex.runHistory [.importImage bytes false none] =
      { lex with vocabulary := ⟨g, none⟩, anagramCounts := .ofWords g.words, cache := .empty } := by
    show lex.loadImage bytes false none = _
    rw [loadImage, importImage_of_ofImage (Vocabulary.ofImage_of_decode hread (by simp) false)]
    rfl
  rw [himport] at hplain hcounts hrow ⊢
  have hover : maxWord32 < g.words.countP (·.isPerm (inTurn n).upper) := by
    rw [upper_inTurn]
    exact Nat.lt_of_lt_of_le hhalf hperms
  refine ⟨rfl, ?_, ?_, ?_⟩
  · rw [hplain.getElem?_counts hcounts]
    exact AnagramCounts.map_stored?_ne hover
  · rw [hplain.fst_anagrams hcounts (hrow rfl _)]
    exact Nat.ne_of_lt (Nat.lt_of_lt_of_le (Nat.mod_lt _ (Nat.succ_pos _)) hover)
  · show g.wordCount ≠ g.words.length
    rw [(Image.describes_of_decode hread).wordCount_eq]
    omega

end Lexicon

end WordStudy
