import WordStudy.Proofs.Match.Grammar

/-!
# The marks of a pattern

A pattern can be laid along a word in several ways if it has more than one star. The letters that
are marked are those of **one of these alignments**: the one in which the stars take as few bytes as
they can, the first star before the second and so on. It is found star by star, and only the word
that is left and the tokens that are left matter for the rest.
-/

namespace WordStudy

/-! ## §1 Alignments -/

/-- **What a token takes** of a word: `*` any piece, every other token one byte. -/
def Token.TakesPiece : Token → Word → Prop
  | .star, _ => True
  | token, piece => ∃ b, piece = [b] ∧ token.takes b = true

/-- **An alignment of tokens with a word**: the word is cut into pieces, one for each token. -/
structure IsAlignment (tokens : List Token) (w : Word) (pieces : List Word) : Prop where
  flatten_eq : pieces.flatten = w
  takes : List.Forall₂ Token.TakesPiece tokens pieces

/-- How many bytes each star takes, from the left. -/
def starLengths : List Token → List Word → List Nat
  | .star :: tokens, piece :: pieces => piece.length :: starLengths tokens pieces
  | _ :: tokens, _ :: pieces => starLengths tokens pieces
  | _, _ => []

/-- The token that each byte falls on. -/
def tokensOfBytes : List Token → List Word → List Token
  | token :: tokens, piece :: pieces =>
    List.replicate piece.length token ++ tokensOfBytes tokens pieces
  | _, _ => []

/-- **The least alignment**: no other one has star lengths that come before its own, compared from
the left. -/
structure IsLeastAlignment (tokens : List Token) (w : Word) (pieces : List Word) : Prop where
  isAlignment : IsAlignment tokens w pieces
  not_lt : ∀ other, IsAlignment tokens w other →
    ¬ starLengths tokens other < starLengths tokens pieces

section

variable {token : Token} {tokens : List Token} {b : UInt8} {w : Word} {pieces : List Word}

theorem Token.takesPiece_of_isStar_eq_false (h : token.isStar = false) {piece : Word} :
    token.TakesPiece piece ↔ ∃ b, piece = [b] ∧ token.takes b = true := by
  cases token with
  | star => cases h
  | _ => exact Iff.rfl

theorem starLengths_of_isStar_eq_false (h : token.isStar = false) (piece : Word) :
    starLengths (token :: tokens) (piece :: pieces) = starLengths tokens pieces := by
  cases token with
  | star => cases h
  | _ => rfl

theorem isAlignment_nil : IsAlignment [] w pieces ↔ w = [] ∧ pieces = [] := by
  constructor
  · rintro ⟨rfl, htakes⟩
    cases htakes
    exact ⟨rfl, rfl⟩
  · rintro ⟨rfl, rfl⟩
    exact ⟨rfl, .nil⟩

/-- An alignment lays its first piece along the first token. -/
theorem isAlignment_cons :
    IsAlignment (token :: tokens) w pieces ↔ ∃ piece rest others, w = piece ++ rest ∧
      pieces = piece :: others ∧ token.TakesPiece piece ∧ IsAlignment tokens rest others := by
  constructor
  · rintro ⟨rfl, htakes⟩
    cases htakes with
    | @cons _ piece _ others hpiece hothers =>
      exact ⟨piece, others.flatten, others, List.flatten_cons, rfl, hpiece, rfl, hothers⟩
  · rintro ⟨piece, rest, others, rfl, rfl, hpiece, rfl, hothers⟩
    exact ⟨List.flatten_cons, .cons hpiece hothers⟩

theorem isAlignment_one_cons (h : token.isStar = false) :
    IsAlignment (token :: tokens) (b :: w) pieces ↔
      ∃ others, pieces = [b] :: others ∧ token.takes b = true ∧ IsAlignment tokens w others := by
  rw [isAlignment_cons]
  simp only [Token.takesPiece_of_isStar_eq_false h]
  constructor
  · rintro ⟨_, rest, others, hw, rfl, ⟨c, rfl, htakes⟩, hothers⟩
    cases hw
    exact ⟨others, rfl, htakes, hothers⟩
  · rintro ⟨others, rfl, htakes, hothers⟩
    exact ⟨[b], w, others, rfl, rfl, ⟨b, rfl, htakes⟩, hothers⟩

/-- **Tokens spell a word** exactly if they can be aligned with it. -/
theorem spelledBy_iff_exists_alignment :
    Pattern.spelledBy tokens w = true ↔ ∃ pieces, IsAlignment tokens w pieces := by
  -- A piece of a word is spelled by one token just if the token takes it.
  have hpiece : ∀ token piece,
      Pattern.rules.Spelling [token] piece ↔ Token.TakesPiece token piece := by
    intro token piece
    cases htoken : token.isStar with
    | true =>
      obtain rfl := Checked.eq_star_of_isStar htoken
      exact iff_of_true (SignRules.spelling_star rfl piece) trivial
    | false =>
      rw [Token.takesPiece_of_isStar_eq_false htoken]
      exact SignRules.spelling_one htoken
  rw [Pattern.spelledBy, SignRules.spells_iff, SignRules.spelling_iff_exists_pieces]
  simp only [hpiece]
  refine exists_congr fun pieces => ?_
  constructor
  · rintro ⟨hflat, htakes⟩
    exact ⟨hflat, htakes⟩
  · rintro ⟨hflat, htakes⟩
    exact ⟨hflat, htakes⟩

end

/-! ## §2 The least alignment, star by star -/

/-- An alignment **before all others**: their star lengths are greater. -/
structure IsFirstAlignment (tokens : List Token) (w : Word) (pieces : List Word) : Prop where
  isAlignment : IsAlignment tokens w pieces
  eq_or_lt : ∀ other, IsAlignment tokens w other →
    other = pieces ∨ starLengths tokens pieces < starLengths tokens other

namespace IsFirstAlignment

variable {token : Token} {tokens : List Token} {b : UInt8} {w piece : Word} {pieces : List Word}

theorem nil : IsFirstAlignment [] [] [] :=
  ⟨isAlignment_nil.mpr ⟨rfl, rfl⟩, fun _ hother => .inl (isAlignment_nil.mp hother).2⟩

/-- A token that is no star has no choice. -/
theorem one (hone : token.isStar = false) (htakes : token.takes b = true)
    (h : IsFirstAlignment tokens w pieces) :
    IsFirstAlignment (token :: tokens) (b :: w) ([b] :: pieces) := by
  refine ⟨(isAlignment_one_cons hone).mpr ⟨pieces, rfl, htakes, h.isAlignment⟩, ?_⟩
  intro other hother
  obtain ⟨others, rfl, -, hothers⟩ := (isAlignment_one_cons hone).mp hother
  rw [starLengths_of_isStar_eq_false hone, starLengths_of_isStar_eq_false hone]
  exact (h.eq_or_lt others hothers).imp_left (congrArg _)

/-- **Where the tokens behind a star fit, it takes nothing.** -/
theorem skip (h : IsFirstAlignment tokens w pieces) :
    IsFirstAlignment (.star :: tokens) w ([] :: pieces) := by
  refine ⟨isAlignment_cons.mpr ⟨[], w, pieces, rfl, rfl, trivial, h.isAlignment⟩, ?_⟩
  intro other hother
  obtain ⟨piece, rest, others, rfl, rfl, -, hothers⟩ := isAlignment_cons.mp hother
  cases piece with
  | nil =>
    refine (h.eq_or_lt others hothers).imp (congrArg _) fun hless => ?_
    exact List.cons_lt_cons_iff.mpr (.inr ⟨rfl, hless⟩)
  | cons c piece => exact .inr (List.cons_lt_cons_iff.mpr (.inl (Nat.succ_pos _)))

/-- **Where they do not fit, it takes a byte more.** -/
theorem more (hnone : ∀ others, ¬ IsAlignment tokens (b :: w) others)
    (h : IsFirstAlignment (.star :: tokens) w (piece :: pieces)) :
    IsFirstAlignment (.star :: tokens) (b :: w) ((b :: piece) :: pieces) := by
  constructor
  · obtain ⟨_, rest, _, rfl, heq, -, haligned⟩ := isAlignment_cons.mp h.isAlignment
    cases heq
    exact isAlignment_cons.mpr ⟨b :: piece, rest, pieces, rfl, rfl, trivial, haligned⟩
  -- An alignment without the first byte in the star was ruled out; with it, it is one of the rest.
  · intro other hother
    obtain ⟨taken, rest, others, hw, rfl, -, hothers⟩ := isAlignment_cons.mp hother
    cases taken with
    | nil =>
      obtain rfl : b :: w = rest := hw
      exact absurd hothers (hnone others)
    | cons c taken =>
      cases hw
      have hshorter : IsAlignment (.star :: tokens) (taken ++ rest) (taken :: others) :=
        isAlignment_cons.mpr ⟨taken, rest, others, rfl, rfl, trivial, hothers⟩
      rcases h.eq_or_lt _ hshorter with heq | hless
      · cases heq
        exact .inl rfl
      · refine .inr (List.cons_lt_cons_iff.mpr ?_)
        exact (List.cons_lt_cons_iff.mp hless).imp Nat.succ_lt_succ
          (And.imp_left (congrArg Nat.succ))

theorem isLeastAlignment (h : IsFirstAlignment tokens w pieces) :
    IsLeastAlignment tokens w pieces := by
  refine ⟨h.isAlignment, fun other hother hless => ?_⟩
  rcases h.eq_or_lt other hother with rfl | hgreater
  · exact List.lt_irrefl _ hless
  · exact List.lt_asymm hgreater hless

/-- **No other alignment is least.** -/
theorem eq_of_isLeast (h : IsFirstAlignment tokens w pieces) {other : List Word}
    (hother : IsLeastAlignment tokens w other) : other = pieces := by
  rcases h.eq_or_lt other hother.isAlignment with heq | hgreater
  · exact heq
  · exact absurd hgreater (hother.not_lt pieces h.isAlignment)

end IsFirstAlignment

/-! ## §3 The marks -/

namespace Pattern

open Checked (eq_star_of_isStar literalMarks_one_nil literalMarks_one_cons literalMarks_star_nil
  literalMarks_star_cons isSome_literalMarks)

/-- Tokens for which there are no marks cannot be aligned. -/
theorem not_isAlignment_of_literalMarks {tokens : List Token} {w : Word}
    (h : literalMarks tokens w = none) (pieces : List Word) : ¬ IsAlignment tokens w pieces := by
  intro haligned
  have hspelled := spelledBy_iff_exists_alignment.mpr ⟨pieces, haligned⟩
  rw [← isSome_literalMarks, h] at hspelled
  cases hspelled

/-- **The marks are those of the first alignment.** -/
theorem exists_isFirstAlignment {tokens : List Token} {w : Word} {marks : List Bool}
    (h : literalMarks tokens w = some marks) : ∃ pieces, IsFirstAlignment tokens w pieces ∧
      marks = (tokensOfBytes tokens pieces).map Token.isLetter := by
  -- The marks are found as the first alignment is: by the first token, and at a star byte by byte.
  induction tokens generalizing w marks with
  | nil =>
    cases w with
    | nil =>
      cases h
      exact ⟨[], .nil, rfl⟩
    | cons b w => cases h
  | cons token tokens ih =>
    cases htoken : token.isStar with
    | false =>
      cases w with
      | nil =>
        rw [literalMarks_one_nil _ htoken] at h
        cases h
      | cons b w =>
        rw [literalMarks_one_cons _ _ _ htoken] at h
        split at h
        · next htakes =>
          obtain ⟨rest, hrest, rfl⟩ := Option.map_eq_some_iff.mp h
          obtain ⟨pieces, hfirst, rfl⟩ := ih hrest
          exact ⟨[b] :: pieces, hfirst.one htoken htakes, rfl⟩
        · cases h
    | true =>
      obtain rfl := eq_star_of_isStar htoken
      -- The induction within is on the word, as the star takes one byte after another.
      induction w generalizing marks with
      | nil =>
        rw [literalMarks_star_nil] at h
        obtain ⟨pieces, hfirst, rfl⟩ := ih h
        exact ⟨[] :: pieces, hfirst.skip, rfl⟩
      | cons b w ihWord =>
        rw [literalMarks_star_cons] at h
        split at h
        · next hfits =>
          cases h
          obtain ⟨pieces, hfirst, rfl⟩ := ih hfits
          exact ⟨[] :: pieces, hfirst.skip, rfl⟩
        · next hnone =>
          obtain ⟨rest, hrest, rfl⟩ := Option.map_eq_some_iff.mp h
          obtain ⟨all, hfirst, rfl⟩ := ihWord hrest
          obtain ⟨piece, _, pieces, -, rfl, -⟩ := isAlignment_cons.mp hfirst.isAlignment
          exact ⟨(b :: piece) :: pieces, hfirst.more (not_isAlignment_of_literalMarks hnone), rfl⟩

/-- **A pattern that spells a word has one least alignment with it.** -/
theorem existsUnique_isLeastAlignment {p : Pattern} {w : Word} (h : p.spells w = true) :
    ∃! pieces, IsLeastAlignment p.tokens w pieces := by
  have hsome : (literalMarks p.tokens w).isSome = true := (isSome_literalMarks p.tokens w).trans h
  obtain ⟨marks, hmarks⟩ := Option.isSome_iff_exists.mp hsome
  obtain ⟨pieces, hfirst, -⟩ := exists_isFirstAlignment hmarks
  exact ⟨pieces, hfirst.isLeastAlignment, fun other hother => hfirst.eq_of_isLeast hother⟩

/-- **The marked bytes are those that fall on a letter** in the least alignment. -/
theorem literalLetters_of_isLeastAlignment {p : Pattern} {w : Word} {pieces : List Word}
    (h : IsLeastAlignment p.tokens w pieces) :
    p.literalLetters w = some ((tokensOfBytes p.tokens pieces).map Token.isLetter) := by
  have hsome : (literalMarks p.tokens w).isSome = true :=
    (isSome_literalMarks p.tokens w).trans
      (spelledBy_iff_exists_alignment.mpr ⟨pieces, h.isAlignment⟩)
  obtain ⟨marks, hmarks⟩ := Option.isSome_iff_exists.mp hsome
  obtain ⟨first, hfirst, rfl⟩ := exists_isFirstAlignment hmarks
  rw [literalLetters, hmarks, hfirst.eq_of_isLeast h]

end Pattern

end WordStudy
