import Mathlib.Data.List.Forall2
import WordStudy.Proofs.Access.Patterns
import WordStudy.Proofs.Access.Racks

/-!
# The grammar of patterns

What texts write patterns, said without a scanner, and what words they are patterns of, said
without positions. A text is written **sign by sign**, a class with all that is between its
brackets, and a word is cut into **one piece for each sign**. The scanner reads a class letter by
letter, so that the argument goes through what it has read since the opening bracket.
-/

namespace WordStudy

/-! ## §1 Signs as they are written -/

/-- An ASCII letter in either case. -/
abbrev AsciiLetter : Type := {c : Char // c.isAlpha = true}

/-- One sign of a pattern as it is written. -/
inductive PatternSign where
  | letter (c : AsciiLetter)
  /-- `?`, or `.` for the same. -/
  | one (dot : Bool)
  | star
  /-- `[ABC]` or `[^ABC]`, where at least one letter is between the brackets. -/
  | oneOf (negated : Bool) (first : AsciiLetter) (others : List AsciiLetter)

namespace PatternSign

/-- The letters of a class between its brackets. -/
def classLetters (first : AsciiLetter) (others : List AsciiLetter) : List Char :=
  (first :: others).map Subtype.val

/-- The characters of a sign. -/
def written : PatternSign → List Char
  | letter c => [c]
  | one dot => if dot then ['.'] else ['?']
  | star => ['*']
  | oneOf negated first others =>
    '[' :: ((if negated then ['^'] else []) ++ classLetters first others) ++ [']']

/-- **What a sign takes** of a word: a letter its upper-case letter, `?` any one byte, a class one
of its letters, a negated class one of the other letters, and `*` any piece at all. -/
def Takes : PatternSign → Word → Prop
  | letter c, piece => piece = [Token.letterOf c]
  | one _, piece => piece.length = 1
  | star, _ => True
  | oneOf negated first others, piece => ∃ b, piece = [b] ∧ isUpper b = true ∧
      (b ∈ (classLetters first others).map Token.letterOf ↔ negated = false)

/-- The token of a sign. -/
def token : PatternSign → Token
  | letter c => .letter (Token.letterOf c)
  | one _ => .any
  | star => .star
  | oneOf negated first others =>
    let set := LetterSet.ofLetters ((classLetters first others).map Token.letterOf)
    .oneOf (if negated then set.complement else set)

/-! ## §2 Reading what is written -/

theorem all_classLetters (first : AsciiLetter) (others : List AsciiLetter) :
    (classLetters first others).all Char.isAlpha = true := by
  rw [List.all_eq_true]
  intro c hc
  obtain ⟨letter, -, rfl⟩ := List.mem_map.mp hc
  exact letter.property

/-- No sign but a letter stands in a class. -/
theorem notMem_classLetters {first : AsciiLetter} {others : List AsciiLetter} {sign : Char}
    (h : sign.isAlpha = false) : sign ∉ classLetters first others := by
  intro hmem
  have halpha := List.all_eq_true.mp (all_classLetters first others) sign hmem
  exact Bool.false_ne_true (h.symm.trans halpha)

/-- The class of letters is that of their sign. -/
theorem letterClass_classLetters (negated : Bool) (first : AsciiLetter)
    (others : List AsciiLetter) :
    Checked.letterClass negated (classLetters first others) =
      some (oneOf negated first others).token := by
  have hletters : ((classLetters first others).isEmpty ||
      !(classLetters first others).all Char.isAlpha) = false := by
    rw [all_classLetters]
    rfl
  rw [Checked.letterClass, hletters]
  rfl

theorem classOf_written (negated : Bool) (first : AsciiLetter) (others : List AsciiLetter) :
    Token.classOf ((if negated then ['^'] else []) ++ classLetters first others) =
      some (oneOf negated first others).token := by
  cases negated with
  | true => exact (Checked.classOf_caret _).trans (letterClass_classLetters true first others)
  | false =>
    have hcaret : (classLetters first others).head? ≠ some '^' :=
      fun h => notMem_classLetters rfl (List.mem_of_mem_head? h)
    exact (Checked.classOf_of_ne hcaret).trans (letterClass_classLetters false first others)

/-- **A sign is read** where it is written, and what is behind it follows. -/
theorem scan_written_append (s : PatternSign) (cs : List Char) :
    Token.scan none (s.written ++ cs) = (Token.scan none cs).map (s.token :: ·) := by
  have hone {c : Char} (hopen : c ≠ '[') (hsign : Token.ofSign c = some s.token) :
      Token.scan none (c :: cs) = (Token.scan none cs).map (s.token :: ·) := by
    rw [Token.scan, if_neg hopen, hsign]
    cases Token.scan none cs <;> rfl
  -- Only a class is read from inside brackets; every other sign is one character.
  cases s with
  | letter c =>
    have hopen : c.val ≠ '[' := by
      intro h
      exact absurd (h ▸ c.property) (by decide)
    exact hone hopen (if_pos c.property)
  | one dot => cases dot <;> exact hone (by decide) rfl
  | star => exact hone (by decide) rfl
  | oneOf negated first others =>
    -- The first closing bracket is the one that ends the class, for none is among its letters.
    have hinner : ']' ∉ (if negated then ['^'] else []) ++ classLetters first others := by
      rw [List.mem_append, not_or]
      exact ⟨by cases negated <;> decide, notMem_classLetters rfl⟩
    have hscan := Checked.scan_class [] hinner cs
    rw [List.reverse_nil, List.nil_append, classOf_written] at hscan
    rw [written, List.cons_append, List.cons_append, List.append_assoc, List.singleton_append,
      Token.scan, if_pos rfl, hscan]
    cases Token.scan none cs <;> rfl

/-- **What is written is read** sign by sign. -/
theorem scan_flatMap_written (signs : List PatternSign) :
    Token.scan none (signs.flatMap written) = some (signs.map token) := by
  induction signs with
  | nil => rfl
  | cons s signs ih => rw [List.flatMap_cons, scan_written_append, ih]; rfl

/-! ## §3 Reading nothing else -/

/-- A sign that stands alone. -/
theorem exists_of_ofSign {c : Char} {t : Token} (h : Token.ofSign c = some t) :
    ∃ s : PatternSign, s.written = [c] ∧ s.token = t := by
  unfold Token.ofSign at h
  split at h
  · next halpha =>
    cases h
    exact ⟨letter ⟨c, halpha⟩, rfl, rfl⟩
  split at h
  · next hone =>
    cases h
    simp only [Bool.or_eq_true, decide_eq_true_eq] at hone
    obtain rfl | rfl := hone
    · exact ⟨one false, rfl, rfl⟩
    · exact ⟨one true, rfl, rfl⟩
  split at h
  · next hstar =>
    cases h
    exact ⟨star, by rw [hstar]; rfl, rfl⟩
  · cases h

/-- A class between brackets. -/
theorem exists_of_letterClass {negated : Bool} {letters : List Char} {t : Token}
    (h : Checked.letterClass negated letters = some t) :
    ∃ first others, letters = classLetters first others ∧
      (oneOf negated first others).token = t := by
  have hletters : (letters.isEmpty || !letters.all Char.isAlpha) = false := by
    by_contra hne
    rw [Checked.letterClass, if_pos (Bool.not_eq_false _ ▸ hne)] at h
    cases h
  rw [Bool.or_eq_false_iff, Bool.not_eq_false', List.isEmpty_eq_false_iff] at hletters
  obtain ⟨hne, hall⟩ := hletters
  obtain ⟨first, others, rfl⟩ : ∃ first others, letters = classLetters first others := by
    obtain ⟨c, cs, rfl⟩ := List.exists_cons_of_ne_nil hne
    rw [List.all_cons, Bool.and_eq_true, List.all_eq_true] at hall
    exact ⟨⟨c, hall.1⟩, cs.pmap Subtype.mk hall.2, by simp [classLetters, List.map_pmap]⟩
  rw [letterClass_classLetters] at h
  exact ⟨first, others, rfl, Option.some.inj h⟩

theorem exists_of_classOf {inner : List Char} {t : Token} (h : Token.classOf inner = some t) :
    ∃ s : PatternSign, s.written = '[' :: inner ++ [']'] ∧ s.token = t := by
  by_cases hcaret : inner.head? = some '^'
  · obtain ⟨letters, rfl⟩ := List.head?_eq_some_iff.mp hcaret
    rw [Checked.classOf_caret] at h
    obtain ⟨first, others, rfl, rfl⟩ := exists_of_letterClass h
    exact ⟨oneOf true first others, rfl, rfl⟩
  · rw [Checked.classOf_of_ne hcaret] at h
    obtain ⟨first, others, rfl, rfl⟩ := exists_of_letterClass h
    exact ⟨oneOf false first others, rfl, rfl⟩

/-- What was read since the opening bracket, with the bracket. -/
def opened : Option (List Char) → List Char
  | none => []
  | some body => '[' :: body.reverse

/-- **What is read was written**: the rest of a text, behind what was read of an open class. -/
theorem exists_of_scan {body : Option (List Char)} {cs : List Char} {tokens : List Token}
    (h : Token.scan body cs = some tokens) :
    ∃ signs : List PatternSign, opened body ++ cs = signs.flatMap written ∧
      signs.map token = tokens := by
  -- The induction is along the scanner; what it keeps of an open class is put in front of the rest.
  fun_induction Token.scan body cs generalizing tokens with
  | case1 => exact ⟨[], rfl, Option.some.inj h⟩
  | case2 => cases h
  | case3 rest ih => exact ih h
  | case4 c rest hc t more hmore hsign ih =>
    cases h
    obtain ⟨s, hs, rfl⟩ := exists_of_ofSign hsign
    obtain ⟨signs, hsigns, rfl⟩ := ih hmore
    refine ⟨s :: signs, ?_, rfl⟩
    rw [List.flatMap_cons, ← hsigns, hs]
    rfl
  | case5 => cases h
  | case6 body rest t more hmore hclass ih =>
    cases h
    obtain ⟨s, hs, rfl⟩ := exists_of_classOf hclass
    obtain ⟨signs, hsigns, rfl⟩ := ih hmore
    refine ⟨s :: signs, ?_, rfl⟩
    rw [List.flatMap_cons, ← hsigns, hs]
    simp [opened]
  | case7 => cases h
  | case8 body c rest hc ih =>
    obtain ⟨signs, hsigns, rfl⟩ := ih h
    refine ⟨signs, ?_, rfl⟩
    rw [← hsigns]
    simp [opened]

/-- A text is read exactly if it is written with signs. -/
theorem read_eq_some_iff {text : String} {tokens : List Token} :
    Token.read text = some tokens ↔
      ∃ signs : List PatternSign,
        text.toList = signs.flatMap written ∧ signs.map token = tokens := by
  constructor
  · exact exists_of_scan
  · rintro ⟨signs, htext, rfl⟩
    rw [Token.read, htext, scan_flatMap_written]

/-! ## §4 Words cut into pieces -/

end PatternSign

namespace LetterSet

theorem place_inj {b c : UInt8} (hb : isUpper b = true) (hc : isUpper c = true) :
    place b = place c ↔ b = c := by
  constructor
  · intro h
    rw [← letterAt_place hb, ← letterAt_place hc]
    simp only [h]
  · exact congrArg place

/-- The set of letters holds the upper-case letters among them. -/
theorem contains_ofLetters (letters : List UInt8) (b : UInt8) :
    (ofLetters letters).contains b = (isUpper b && letters.contains b) := by
  -- A letter sets its own bit, which no other letter has.
  have hfold (hb : isUpper b = true) (bits : BitVec 26) :
      (letters.foldl (fun bits c => if isUpper c then bits ||| BitVec.twoPow 26 (place c) else bits)
        bits).getLsbD (place b) = (bits.getLsbD (place b) || letters.contains b) := by
    induction letters generalizing bits with
    | nil => simp
    | cons c letters ih =>
      rw [List.foldl_cons, ih, List.contains_cons, ← Bool.or_assoc]
      congr 1
      cases hc : isUpper c with
      | false =>
        have hne : b ≠ c := by
          rintro rfl
          exact Bool.false_ne_true (hc.symm.trans hb)
        simp [hne]
      | true =>
        have hsame : (b == c) = decide (place c = place b) := by
          rw [Bool.eq_iff_iff, beq_iff_eq, decide_eq_true_eq, place_inj hc hb, eq_comm]
        simp [place_lt hc, hsame]
  cases hb : isUpper b with
  | false => simp [contains, hb]
  | true => simp [contains, hb, ofLetters, hfold hb]

end LetterSet

namespace SignRules

variable {σ β : Type} {rules : SignRules σ β}

/-- **Signs spell symbols piece by piece**: one piece for each sign in order. -/
theorem spelling_iff_exists_pieces {ss : List σ} {bs : List β} :
    rules.Spelling ss bs ↔ ∃ pieces : List (List β), pieces.flatten = bs ∧
      List.Forall₂ (fun s piece => rules.Spelling [s] piece) ss pieces := by
  constructor
  · intro h
    -- The piece of the first sign is cut off, and the other signs spell what is left.
    induction ss generalizing bs with
    | nil =>
      obtain rfl := spelling_nil.mp h
      exact ⟨[], rfl, .nil⟩
    | cons s ss ih =>
      obtain ⟨piece, rest, rfl, hpiece, hrest⟩ := h.uncons
      obtain ⟨pieces, rfl, hpieces⟩ := ih hrest
      exact ⟨piece :: pieces, List.flatten_cons, .cons hpiece hpieces⟩
  · rintro ⟨pieces, rfl, hpieces⟩
    induction hpieces with
    | nil => exact .nil
    | cons hpiece _ ih => exact hpiece.append ih

end SignRules

namespace PatternSign

/-- The token of a sign takes the pieces that the sign does. -/
theorem spelling_token_iff (s : PatternSign) (piece : Word) :
    Pattern.rules.Spelling [s.token] piece ↔ s.Takes piece := by
  cases s with
  | letter c =>
    refine (SignRules.spelling_one rfl).trans ?_
    simp [Pattern.rules, token, Token.takes, Takes]
  | one dot =>
    refine (SignRules.spelling_one rfl).trans ?_
    simp [Pattern.rules, token, Token.takes, Takes, List.length_eq_one_iff]
  | star => exact iff_of_true (SignRules.spelling_star rfl piece) trivial
  | oneOf negated first others =>
    refine (SignRules.spelling_one rfl).trans (exists_congr fun b => and_congr_right fun _ => ?_)
    cases negated <;> cases hb : isUpper b <;>
      simp [Pattern.rules, token, Token.takes, LetterSet.contains_complement,
        LetterSet.contains_ofLetters, hb]

/-- **Tokens spell a word** exactly if it can be cut into pieces that their signs take. -/
theorem spelling_map_token_iff (signs : List PatternSign) (w : Word) :
    Pattern.rules.Spelling (signs.map token) w ↔
      ∃ pieces : List Word, pieces.flatten = w ∧ List.Forall₂ Takes signs pieces := by
  rw [SignRules.spelling_iff_exists_pieces]
  simp only [List.forall₂_map_left_iff, spelling_token_iff]

end PatternSign

/-! ## §5 Patterns -/

namespace Pattern

/-- **What texts write patterns**: those of signs that are neither none nor too many. -/
theorem read_eq_some_iff {text : String} {p : Pattern} :
    read text = some p ↔ ∃ signs : List PatternSign,
      text.toList = signs.flatMap PatternSign.written ∧ signs.map PatternSign.token = p.tokens ∧
        1 ≤ signs.length ∧ signs.length ≤ 127 := by
  have hlimits (signs : List PatternSign) : ((signs.map PatternSign.token).isEmpty ||
      decide (maxTokens < (signs.map PatternSign.token).length)) = false ↔
        1 ≤ signs.length ∧ signs.length ≤ 127 := by
    rw [Bool.or_eq_false_iff, List.isEmpty_eq_false_iff, decide_eq_false_iff_not, List.length_map,
      Nat.not_lt, Ne, List.map_eq_nil_iff, ← Ne, ← List.length_pos_iff]
    rfl
  constructor
  · intro h
    unfold read at h
    split at h
    · cases h
    · next tokens htokens =>
      obtain ⟨signs, htext, rfl⟩ := PatternSign.read_eq_some_iff.mp htokens
      split at h
      · cases h
      · next hnot =>
        cases h
        exact ⟨signs, htext, rfl, (hlimits signs).mp (Bool.eq_false_iff.mpr hnot)⟩
  · rintro ⟨signs, htext, htokens, hcount⟩
    rw [read, PatternSign.read_eq_some_iff.mpr ⟨signs, htext, rfl⟩]
    dsimp only
    rw [(hlimits signs).mpr hcount, htokens]
    rfl

/-- **Patterns and their words.** A text is a pattern exactly if it is written with 1 to 127 signs,
and the words of a pattern are those that can be cut into one piece for each sign, each piece one
that its sign takes. Reading a text byte by byte and keeping the live positions in a word of 128
bits gives the same, for words of any bytes. -/
theorem isSome_read_and_spells_iff (text : String) :
    Checked.readPattern text = pure (read text) ∧
      ((read text).isSome = true ↔ ∃ signs : List PatternSign,
        text.toList = signs.flatMap PatternSign.written ∧ 1 ≤ signs.length ∧ signs.length ≤ 127) ∧
      ∀ p, read text = some p → ∀ signs : List PatternSign,
        text.toList = signs.flatMap PatternSign.written → ∀ w : Word,
          Checked.spellsPattern p w = pure (p.spells w) ∧
            (p.spells w = true ↔ ∃ pieces : List Word,
              pieces.flatten = w ∧ List.Forall₂ PatternSign.Takes signs pieces) := by
  refine ⟨Checked.readPattern_eq text, ?_, ?_⟩
  · rw [Option.isSome_iff_exists]
    constructor
    · rintro ⟨p, hp⟩
      obtain ⟨signs, htext, -, hcount⟩ := read_eq_some_iff.mp hp
      exact ⟨signs, htext, hcount⟩
    · rintro ⟨signs, htext, hcount⟩
      exact ⟨⟨signs.map PatternSign.token⟩, read_eq_some_iff.mpr ⟨signs, htext, rfl, hcount⟩⟩
  · intro p hp signs htext w
    -- The text is read as the signs that are given, so these have the tokens of the pattern.
    have htokens : p.tokens = signs.map PatternSign.token := by
      obtain ⟨signs', htext', htokens', -⟩ := read_eq_some_iff.mp hp
      have hread := PatternSign.scan_flatMap_written signs
      rw [← htext, htext', PatternSign.scan_flatMap_written, htokens'] at hread
      exact Option.some.inj hread
    refine ⟨Checked.spellsPattern_eq (Checked.length_tokens_of_read hp) w, ?_⟩
    rw [← PatternSign.spelling_map_token_iff, ← htokens]
    exact SignRules.spells_iff p.tokens w

theorem spells_of_pieces_of_class_and_star :
    "b.[^Ae]*".toList = [PatternSign.letter ⟨'b', rfl⟩, .one true,
        .oneOf true ⟨'A', rfl⟩ [⟨'e', rfl⟩], .star].flatMap PatternSign.written ∧
      ∃ p, read "b.[^Ae]*" = some p ∧ p.spells [0x42, 0x80, 0x5A, 0x41, 0x45] = true := by
  have hread : read "b.[^Ae]*" =
      some ⟨[.letter 0x42, .any, .oneOf ⟨0x3FFFFEE⟩, .star]⟩ := by decide +kernel
  refine ⟨by decide +kernel, _, hread, ?_⟩
  refine ((isSome_read_and_spells_iff "b.[^Ae]*").2.2 _ hread
    [.letter ⟨'b', rfl⟩, .one true, .oneOf true ⟨'A', rfl⟩ [⟨'e', rfl⟩], .star] (by decide +kernel)
    [0x42, 0x80, 0x5A, 0x41, 0x45]).2.mpr ⟨[[0x42], [0x80], [0x5A], [0x41, 0x45]], rfl, ?_⟩
  refine .cons ?_ (.cons ?_ (.cons ?_ (.cons ?_ .nil)))
  · rfl
  · rfl
  · exact ⟨0x5A, rfl, rfl, by decide⟩
  · trivial

end Pattern

end WordStudy
