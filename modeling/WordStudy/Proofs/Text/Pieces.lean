import Mathlib.Data.List.TakeWhile
import WordStudy.Text.Blank
import WordStudy.Text.Numeral

/-!
# Cutting what was joined

Texts are cut at characters that no piece contains, so that **cutting undoes joining**, and a number
that is written in decimal digits is read as the same number.
-/

namespace WordStudy.Text

/-! ## §1 Cuts -/

section Cuts

variable {cut : Char → Bool}

/-- The characters are none of those at which a text is cut. -/
def IsUncut (cut : Char → Bool) (text : List Char) : Prop := ∀ c ∈ text, cut c = false

instance (cut : Char → Bool) (text : List Char) : Decidable (IsUncut cut text) :=
  List.decidableBAll _ text

theorem IsUncut.append {front rest : List Char} (hfront : IsUncut cut front)
    (hrest : IsUncut cut rest) : IsUncut cut (front ++ rest) := by
  intro c hc
  rcases List.mem_append.mp hc with hc | hc
  · exact hfront c hc
  · exact hrest c hc

theorem isUncut_cons {c : Char} {text : List Char} :
    IsUncut cut (c :: text) ↔ cut c = false ∧ IsUncut cut text := List.forall_mem_cons

/-- A text without a cut is one piece. -/
theorem splitBy_of_isUncut {text : List Char} (h : IsUncut cut text) : splitBy cut text = [text] := by
  induction text with
  | nil => rfl
  | cons c text ih =>
    obtain ⟨hc, htext⟩ := isUncut_cons.mp h
    simp [splitBy, hc, ih htext]

/-- There is always a piece. -/
theorem splitBy_ne_nil (text : List Char) : splitBy cut text ≠ [] := by
  cases text with
  | nil => exact List.cons_ne_nil _ _
  | cons c text =>
    simp only [splitBy]
    split
    · exact List.cons_ne_nil _ _
    · split <;> exact List.cons_ne_nil _ _

/-- **A cut** has the pieces of its two sides. -/
theorem splitBy_append_cons {c : Char} (hc : cut c = true) (front rest : List Char) :
    splitBy cut (front ++ c :: rest) = splitBy cut front ++ splitBy cut rest := by
  induction front with
  | nil => simp [splitBy, hc]
  | cons d front ih =>
    simp only [List.cons_append, splitBy, ih]
    split
    · rfl
    · cases hfront : splitBy cut front with
      | nil => exact absurd hfront (splitBy_ne_nil front)
      | cons piece pieces => rfl

/-- **Pieces that are joined are found again**, if there are any. -/
theorem splitBy_intercalate {pieces : List (List Char)} (hne : pieces ≠ [])
    (hpieces : ∀ piece ∈ pieces, IsUncut cut piece) {c : Char} (hc : cut c = true) :
    splitBy cut ([c].intercalate pieces) = pieces := by
  induction pieces with
  | nil => exact absurd rfl hne
  | cons piece pieces ih =>
    have hpiece := splitBy_of_isUncut (hpieces piece (by simp))
    cases pieces with
    | nil => simpa [List.intercalate] using hpiece
    | cons next pieces =>
      have hrest := ih (by simp) fun p hp => hpieces p (by simp [hp])
      rw [List.intercalate_cons_cons, List.append_assoc, List.singleton_append,
        splitBy_append_cons hc, hpiece, hrest]
      rfl

/-- What is joined without a cut has none. -/
theorem isUncut_intercalate {pieces : List (List Char)}
    (hpieces : ∀ piece ∈ pieces, IsUncut cut piece) {c : Char} (hc : cut c = false) :
    IsUncut cut ([c].intercalate pieces) := by
  induction pieces with
  | nil => exact List.forall_mem_nil _
  | cons piece pieces ih =>
    have hpiece := hpieces piece (by simp)
    cases pieces with
    | nil => simpa [List.intercalate] using hpiece
    | cons next pieces =>
      have hrest := ih fun p hp => hpieces p (by simp [hp])
      rw [List.intercalate_cons_cons, List.append_assoc]
      exact hpiece.append (isUncut_cons.mpr ⟨hc, hrest⟩)

/-- Pieces have no cuts. -/
theorem isUncut_of_mem_splitBy {text piece : List Char} (h : piece ∈ splitBy cut text) :
    IsUncut cut piece := by
  induction text generalizing piece with
  | nil =>
    rw [List.mem_singleton.mp h]
    exact List.forall_mem_nil _
  | cons c text ih =>
    -- A cut begins a new piece; any other character goes on the first one.
    simp only [splitBy] at h
    split at h
    · rcases List.mem_cons.mp h with rfl | h
      · exact List.forall_mem_nil _
      · exact ih h
    · next hc =>
      have hc : cut c = false := by simpa using hc
      split at h
      · rw [List.mem_singleton.mp h]
        exact isUncut_cons.mpr ⟨hc, List.forall_mem_nil _⟩
      · next first pieces hpieces =>
        rcases List.mem_cons.mp h with rfl | h
        · exact isUncut_cons.mpr ⟨hc, ih (by simp [hpieces])⟩
        · exact ih (by simp [hpieces, h])

/-- The characters of a piece are characters of the text. -/
theorem mem_of_mem_splitBy {text piece : List Char} (h : piece ∈ splitBy cut text) {c : Char}
    (hc : c ∈ piece) : c ∈ text := by
  induction text generalizing piece with
  | nil =>
    rw [List.mem_singleton.mp h] at hc
    exact hc
  | cons d text ih =>
    -- The piece is the first one, which may begin with this character, or one behind it.
    simp only [splitBy] at h
    split at h
    · rcases List.mem_cons.mp h with rfl | h
      · cases hc
      · exact List.mem_cons_of_mem _ (ih h hc)
    · split at h
      · rw [List.mem_singleton.mp h] at hc
        exact List.mem_cons.mpr (.inl (List.mem_singleton.mp hc))
      · next first pieces hpieces =>
        rcases List.mem_cons.mp h with rfl | h
        · rcases List.mem_cons.mp hc with rfl | hc
          · exact List.mem_cons_self
          · exact List.mem_cons_of_mem _ (ih (by simp [hpieces]) hc)
        · exact List.mem_cons_of_mem _ (ih (by simp [hpieces, h]) hc)

/-- **A text is cut** behind what has no cut. -/
theorem cutAt_append {front : List Char} (h : IsUncut cut front) {c : Char} (hc : cut c = true)
    (rest : List Char) : cutAt cut (front ++ c :: rest) = some (front, rest) := by
  have hfront : ∀ d ∈ front, (!cut d) = true := fun d hd => by simp [h d hd]
  simp [cutAt, List.dropWhile_append_of_pos hfront, List.takeWhile_append_of_pos hfront, hc]

theorem cutAt_of_isUncut {text : List Char} (h : IsUncut cut text) : cutAt cut text = none := by
  have htext : text.dropWhile (!cut ·) = [] :=
    List.dropWhile_eq_nil_iff.mpr fun c hc => by simp [h c hc]
  simp [cutAt, htext]

/-- **What was cut** stood on the two sides of a cut. -/
theorem eq_of_cutAt {text front rest : List Char} (h : cutAt cut text = some (front, rest)) :
    IsUncut cut front ∧ ∃ c, cut c = true ∧ text = front ++ c :: rest := by
  -- What is in front of the first cut, and the rest from it on, make the text.
  have htext := List.takeWhile_append_dropWhile (p := (!cut ·)) (l := text)
  unfold cutAt at h
  split at h
  · cases h
  · next c behind hdrop =>
    cases h
    constructor
    · intro d hd
      simpa using List.all_eq_true.mp List.all_takeWhile d hd
    · refine ⟨c, ?_, ?_⟩
      · have hhead := List.head?_dropWhile_not (!cut ·) text
        simpa [hdrop] using hhead
      · rw [hdrop] at htext
        exact htext.symm

theorem isUncut_of_cutAt_eq_none {text : List Char} (h : cutAt cut text = none) :
    IsUncut cut text := by
  unfold cutAt at h
  split at h
  · next hdrop =>
    intro c hc
    simpa using List.dropWhile_eq_nil_iff.mp hdrop c hc
  · cases h

end Cuts

/-! ## §2 Decimal numbers -/

theorem le_ofDigitChars (digits : List Char) (value : Nat) :
    value ≤ Nat.ofDigitChars 10 digits value := by
  induction digits generalizing value with
  | nil => exact Nat.le_refl _
  | cons c digits ih =>
    have hrest := ih (10 * value + (c.toNat - '0'.toNat))
    rw [Nat.ofDigitChars_cons]
    omega

theorem digitValue?_of_isDigit {c : Char} (h : c.isDigit = true) :
    digitValue? 10 c = some (c.toNat - '0'.toNat) := by
  have hrange : '0' ≤ c ∧ c ≤ '9' := by
    rw [Char.isDigit, Bool.and_eq_true, decide_eq_true_eq, decide_eq_true_eq] at h
    exact h
  have hlow : '0'.toNat ≤ c.toNat := UInt32.le_iff_toNat_le.mp hrange.1
  have hhigh : c.toNat ≤ '9'.toNat := UInt32.le_iff_toNat_le.mp hrange.2
  have hvalue : c.toNat - '0'.toNat < 10 := by
    have hnine : '9'.toNat = '0'.toNat + 9 := rfl
    omega
  rw [digitValue?, if_pos (by simpa using hrange)]
  simpa using hvalue

/-- **Digits are read** as the number that they stand for, if it is within the limit. -/
theorem readDigits_of_isDigit {limit : Nat} {digits : List Char}
    (hdigits : ∀ c ∈ digits, c.isDigit = true) {value : Nat}
    (hlimit : Nat.ofDigitChars 10 digits value ≤ limit) :
    readDigits 10 limit value digits = .ok (Nat.ofDigitChars 10 digits value) := by
  induction digits generalizing value with
  | nil => rfl
  | cons c digits ih =>
    rw [Nat.ofDigitChars_cons] at hlimit ⊢
    have hle := le_ofDigitChars digits (10 * value + (c.toNat - '0'.toNat))
    have hwithin : ¬limit < value * 10 + (c.toNat - '0'.toNat) := by omega
    simp only [readDigits, digitValue?_of_isDigit (hdigits c (by simp)), hwithin, if_false]
    rw [Nat.mul_comm value 10]
    exact ih (fun d hd => hdigits d (by simp [hd])) hlimit

/-- **A number of 32 bits that is written is read again.** -/
theorem decimal32?_toDigits {n : Nat} (h : n ≤ maxWord32) :
    decimal32? (Nat.toDigits 10 n) = some n := by
  have hdigits : ∀ c ∈ Nat.toDigits 10 n, c.isDigit = true :=
    fun c hc => Nat.isDigit_of_mem_toDigits (by decide) (by decide) hc
  have hvalue : Nat.ofDigitChars 10 (Nat.toDigits 10 n) 0 = n :=
    Nat.ofDigitChars_toDigits (by decide) (by decide)
  have hread : readDigits 10 maxWord32 0 (Nat.toDigits 10 n) = .ok n := by
    rw [readDigits_of_isDigit hdigits (hvalue.symm ▸ h), hvalue]
  -- There is a digit, and no digit is a sign.
  have hread' : readNumeral 10 maxWord32 (Nat.toDigits 10 n) =
      readDigits 10 maxWord32 0 (Nat.toDigits 10 n) := by
    cases hcs : Nat.toDigits 10 n with
    | nil => exact absurd hcs Nat.toDigits_ne_nil
    | cons c digits =>
      have hc : c ≠ '+' := by
        rintro rfl
        have hplus := hdigits '+' (by simp [hcs])
        cases hplus
      unfold readNumeral
      split <;> simp_all
  rw [decimal32?, hread', hread]
  rfl

/-- What is read has 32 bits. -/
theorem le_of_decimal32? {text : List Char} {n : Nat} (h : decimal32? text = some n) :
    n ≤ maxWord32 := by
  -- That the number was read is all that is used of it.
  have hread : readNumeral 10 maxWord32 text = .ok n := by
    unfold decimal32? at h
    cases hnumeral : readNumeral 10 maxWord32 text with
    | error fault => simp [hnumeral, Except.toOption] at h
    | ok m =>
      rw [hnumeral] at h
      exact congrArg Except.ok (Option.some.inj h)
  unfold readNumeral at hread
  split at hread
  · cases hread
  · cases hread
  · exact readDigits_le (Nat.zero_le _) hread
  · exact readDigits_le (Nat.zero_le _) hread

end WordStudy.Text
