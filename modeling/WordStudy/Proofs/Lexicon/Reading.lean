import WordStudy.Lexicon.Search
import WordStudy.Proofs.Graph.Query
import WordStudy.Proofs.Match.Case
import WordStudy.Proofs.Search.Normal

/-!
# Reading a specification word by word

What a search should find, said without plans: each word is held against each condition. A lexicon
without an attribute store knows nothing of vowels, values, ranks and lists, so that **a condition
on them never holds**.
-/

namespace WordStudy

namespace SearchSpec

/-- **The specification holds** when its conditions are read in some way. A conjunction asks for all
of them. A choice asks for one of its alternatives and for all word lists; without alternatives, it
is a conjunction. -/
def holdsBy (spec : SearchSpec) (holds : Condition → Bool) : Bool :=
  if !spec.conjunction && spec.conditions.any Plan.isAlternative then
    spec.conditions.any (fun c => Plan.isAlternative c && holds c) &&
      spec.conditions.all fun c => !c.isList || holds c
  else spec.conditions.all holds

end SearchSpec

/-! ## §1 Letters -/

namespace Condition

/-- A word fits a condition in upper case as it fits the condition. -/
theorem fits_upper (c : Condition) (w : Word) : c.upper.fits w = c.fits w := by
  cases c <;> simp [upper, fits, patternFits, rackFits]

/-- **A length that is implied** is a length of all words that fit. -/
theorem contains_of_lengthHint {c : Condition} {r : Bounds} (hr : c.lengthHint = some r) {w : Word}
    (h : c.fits w = true) : r.contains w.length = true := by
  cases c with
  -- What is negated implies no length.
  | pattern text negated =>
    cases negated with
    | true => cases hr
    | false =>
      obtain ⟨p, hp, hspells⟩ := (Option.any_eq_true _ _).mp h
      simp only [lengthHint, hp, Option.bind_some, Option.map_eq_some_iff] at hr
      obtain ⟨n, hn, rfl⟩ := hr
      have hlength := Pattern.length_eq_of_fixedLength (by simpa using hspells) hn
      simp [Bounds.contains, Bounds.exactly, hlength]
  | anagram letters negated =>
    cases negated with
    | true => cases hr
    | false =>
      obtain ⟨rack, hrack, hspells⟩ := (Option.any_eq_true _ _).mp h
      simp only [lengthHint, hrack, Option.bind_some] at hr
      split at hr
      · cases hr
      · next hlimited =>
        cases hr
        have hlength := Rack.length_eq_size (by simpa using hspells) (by simpa using hlimited)
        simp [Bounds.contains, Bounds.exactly, hlength]
  | subanagram letters negated =>
    cases negated with
    | true => cases hr
    | false =>
      obtain ⟨rack, hrack, hspells⟩ := (Option.any_eq_true _ _).mp h
      simp only [lengthHint, hrack, Option.bind_some] at hr
      split at hr
      · cases hr
      · next hlimited =>
        cases hr
        have hspells' : rack.spells .subanagram w = true := by simpa using hspells
        have hpos := Rack.length_pos_of_spells hspells'
        have hle := Rack.length_le_size hspells' (by simpa using hlimited)
        simp [Bounds.contains, hpos, hle]
  | consist letters lengths negated =>
    cases negated with
    | true => cases hr
    | false =>
      cases hr
      obtain ⟨rack, _, hspells⟩ := (Option.any_eq_true _ _).mp h
      obtain ⟨hleast, hgreatest⟩ := Rack.length_mem_of_consist (by simpa using hspells)
      simp [Bounds.contains, hleast, hgreatest]
  | _ => cases hr

end Condition

/-! ## §2 Without a store -/

namespace Lexicon

theorem accepts_congr (lex : Lexicon) {v w : Word} (h : v.upper = w.upper) :
    lex.accepts v = lex.accepts w := by
  simp [accepts, Vocabulary.contains, h]

/-- What is checked word by word is the same for a condition in upper case. -/
theorem satisfies_upper (lex : Lexicon) (w : Word) (c : Condition) :
    lex.satisfies w c.upper = lex.satisfies w c := by
  -- Only a hook looks its text up in the graph, where case does not matter.
  cases c with
  | takesFront front negated =>
    have hfront := lex.accepts_congr (v := Word.ofText front.toUpper ++ w)
      (w := Word.ofText front ++ w) (by simp [Word.upper_ofText_toUpper])
    simp [Condition.upper, satisfies, hfront]
  | takesBack back negated =>
    have hback := lex.accepts_congr (v := w ++ Word.ofText back.toUpper)
      (w := w ++ Word.ofText back) (by simp [Word.upper_ofText_toUpper])
    simp [Condition.upper, satisfies, hback]
  | _ => rfl

/-- The condition is about a stored attribute or a list of words. -/
def needsStore : Condition → Bool
  | .containing .. | .vowels _ | .distinct _ | .points _ | .anagrams _ | .rank .. | .inList .. => true
  | _ => false

/-- Just these conditions are left to an index that is not there. -/
theorem phase_eq_index_iff {c : Condition} : c.phase false = .index ↔ needsStore c = true := by
  cases c with
  | inSet set negated => cases set <;> simp [Condition.phase, needsStore]
  | _ => simp [Condition.phase, needsStore]

/-! A condition is read in its own phase; in the others it holds. -/

theorem fits_of_phase_wordwise {indexed : Bool} {c : Condition} (h : c.phase indexed = .wordwise)
    {w : Word} : c.fits w = true := by
  cases c with
  | pattern text negated =>
    simp only [Condition.phase] at h
    split at h <;> cases h
  | length range =>
    simp only [Condition.phase] at h
    split at h <;> cases h
  | anagram letters negated => cases h
  | subanagram letters negated => cases h
  | consist letters lengths negated => cases h
  | _ => rfl

theorem satisfies_of_phase_graph {lex : Lexicon} {indexed : Bool} {c : Condition}
    (h : c.phase indexed = .graph) {w : Word} : lex.satisfies w c = true := by
  cases c with
  | inSet set negated => cases set <;> cases indexed <;> cases h
  | takesFront front negated => cases h
  | takesBack back negated => cases h
  | _ => rfl

/-- **A condition read without a store**: by the letters of the word, by what the lexicon accepts
and by the sets it tells; a window bounds no single word. -/
def reads (lex : Lexicon) (w : Word) (c : Condition) : Bool :=
  !needsStore c && c.fits w && lex.satisfies w c

/-- **The reading respects normal forms.** -/
theorem soundReading_reads (lex : Lexicon) (w : Word) : Condition.SoundReading (lex.reads w) where
  upper c := by
    have hneeds : needsStore c.upper = needsStore c := by cases c <;> rfl
    rw [reads, hneeds, Condition.fits_upper, satisfies_upper]
    rfl
  hint c r hr h := by
    simp only [reads, Bool.and_eq_true] at h
    have hlength := Condition.contains_of_lengthHint hr h.1.2
    simpa [reads, needsStore, satisfies, Condition.fits] using hlength
  -- Of the ranges, only lengths are read; the others never hold.
  narrow a _ r s := by
    cases a <;>
      simp [reads, needsStore, satisfies, RangedAttribute.condition, Condition.fits,
        Bounds.contains_narrow]
  empty a r hr := by
    cases a <;>
      simp [reads, needsStore, satisfies, RangedAttribute.condition, Condition.fits,
        Bounds.contains_of_isEmpty hr]

theorem laxMeets_reads (lex : Lexicon) (w : Word) : Condition.LaxMeets (lex.reads w) :=
  fun _ _ => rfl

/-! ## §3 With a store -/

/-- The ranks of a word among the words of its length. -/
def ranks (lex : Lexicon) (w : Word) : Ranks :=
  ((RowSources.allRanks lex.bag lex.vocabulary.words)[w]?).getD ⟨0, 0, 0⟩

/-- **What the words themselves say** of a condition that is left to a store. A lax range of ranks
asks for one of the ranks that are tied with the word. Letters to be contained are counted in either
case, and signs among them are not looked for; negated, none of them may be in the word. -/
def describes (lex : Lexicon) (w : Word) : Condition → Bool
  | .vowels r => r.contains w.vowelCount
  | .distinct r => r.contains w.distinctCount
  | .points r => r.contains (lex.bag.pointValue w)
  | .anagrams r => r.contains (lex.vocabulary.words.countP fun v => v.isPerm w)
  | .rank r false => r.contains (lex.ranks w).rank
  | .rank r true =>
    (List.range ((lex.ranks w).lastTied + 1)).any fun k =>
      (lex.ranks w).firstTied ≤ k && r.contains k
  | .containing letters false =>
    WordStudy.alphabet.all fun l => (Word.ofText letters).upper.count l ≤ w.count l
  | .containing letters true => !w.any (Word.ofText letters).upper.contains
  | .inList words negated => words.any (fun text => w == Word.ofText text.toUpper) != negated
  | _ => true

/-- **A condition read with a store** of what the words say. -/
def readsIndexed (lex : Lexicon) (w : Word) (c : Condition) : Bool :=
  c.fits w && lex.satisfies w c && lex.describes w c

/-! Most conditions are read in one of the three ways only. -/

section

variable {lex : Lexicon} {c : Condition} {w : Word}

theorem readsIndexed_eq_fits (hsatisfies : lex.satisfies w c = true)
    (hdescribes : lex.describes w c = true) : lex.readsIndexed w c = c.fits w := by
  rw [readsIndexed, hsatisfies, hdescribes, Bool.and_true, Bool.and_true]

theorem readsIndexed_eq_satisfies (hfits : c.fits w = true)
    (hdescribes : lex.describes w c = true) : lex.readsIndexed w c = lex.satisfies w c := by
  rw [readsIndexed, hfits, hdescribes, Bool.true_and, Bool.and_true]

theorem readsIndexed_eq_describes (hfits : c.fits w = true)
    (hsatisfies : lex.satisfies w c = true) : lex.readsIndexed w c = lex.describes w c := by
  rw [readsIndexed, hfits, hsatisfies, Bool.true_and, Bool.true_and]

end

theorem describes_upper (lex : Lexicon) (w : Word) (c : Condition) :
    lex.describes w c.upper = lex.describes w c := by
  cases c with
  | containing letters negated =>
    cases negated <;> simp only [Condition.upper, describes, Word.upper_ofText_toUpper]
  | inList words negated =>
    simp only [Condition.upper, describes, List.any_map, Function.comp_def, toUpper_toUpper_text]
  | rank r lax => cases lax <;> rfl
  | _ => rfl

theorem describes_of_phase_graph {lex : Lexicon} {c : Condition} (h : c.phase true = .graph)
    {w : Word} : lex.describes w c = true := by
  cases c with
  | inSet set negated => cases set <;> cases h
  | pattern text negated => rfl
  | anagram letters negated => rfl
  | subanagram letters negated => rfl
  | consist letters lengths negated => rfl
  | _ => cases h

theorem describes_of_phase_wordwise {lex : Lexicon} {c : Condition} (h : c.phase true = .wordwise)
    {w : Word} : lex.describes w c = true := by
  cases c with
  | inSet set negated => rfl
  | takesFront front negated => rfl
  | takesBack back negated => rfl
  | window range lax legacy => rfl
  | pattern text negated => rfl
  | length range => rfl
  | _ => cases h

/-- **The reading with a store respects normal forms**, too. -/
theorem soundReading_readsIndexed (lex : Lexicon) (w : Word) :
    Condition.SoundReading (lex.readsIndexed w) where
  upper c := by simp only [readsIndexed, Condition.fits_upper, satisfies_upper, describes_upper]
  hint c r hr h := by
    simp only [readsIndexed, Bool.and_eq_true] at h
    have hlength := Condition.contains_of_lengthHint hr h.1.1
    simpa [readsIndexed, satisfies, describes, Condition.fits] using hlength
  narrow a ha r s := by
    cases a with
    | rank lax =>
      cases lax with
      -- Two lax ranges may lie in one tie without meeting.
      | true => exact absurd rfl ha
      | false =>
        simp [readsIndexed, satisfies, describes, RangedAttribute.condition, Condition.fits,
          Bounds.contains_narrow]
    | _ =>
      simp [readsIndexed, satisfies, describes, RangedAttribute.condition, Condition.fits,
        Bounds.contains_narrow]
  empty a r hr := by
    cases a with
    | rank lax =>
      cases lax <;>
        simp [readsIndexed, describes, RangedAttribute.condition, Bounds.contains_of_isEmpty hr]
    | length =>
      simp [readsIndexed, RangedAttribute.condition, Condition.fits, Bounds.contains_of_isEmpty hr]
    | _ =>
      simp [readsIndexed, describes, RangedAttribute.condition, Bounds.contains_of_isEmpty hr]

end Lexicon

end WordStudy
