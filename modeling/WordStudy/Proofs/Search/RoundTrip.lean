import WordStudy.Proofs.Search.Written
import WordStudy.Proofs.Text.Utf8

/-!
# Queries that are written and read again

A specification that was read is written as a query, and **reading that query gives the same
specification**, only that patterns are in upper case then. A condition is written as a sign, a field
and a value; each reader takes back what the writer joined.
-/

namespace WordStudy

open Text

namespace Query

/-! ## §1 Numbers and ranges -/

/-- A number in decimal digits. -/
theorem toList_toString (n : Nat) : (toString n).toList = Nat.toDigits 10 n := Nat.toList_repr

theorem readNumber_toDigits {n : Nat} (h : n ≤ maxWord32) :
    readNumber (Nat.toDigits 10 n) = .ok n := by
  rw [readNumber, decimal32?_toDigits h]

/-- Digits are no other signs. -/
theorem isUncut_toDigits {cut : Char → Bool} (hcut : ∀ c : Char, c.isDigit = true → cut c = false)
    (n : Nat) : IsUncut cut (Nat.toDigits 10 n) :=
  fun c hc => hcut c (Nat.isDigit_of_mem_toDigits (by decide) (by decide) hc)

theorem ne_of_isDigit {sign : Char} (hsign : sign.isDigit = false) (c : Char)
    (hc : c.isDigit = true) : (c == sign) = false := by
  rw [beq_eq_false_iff_ne]
  rintro rfl
  cases hsign.symm.trans hc

theorem cutAt_toDigits (n : Nat) (rest : List Char) :
    cutAt (· == '-') (Nat.toDigits 10 n ++ '-' :: rest) = some (Nat.toDigits 10 n, rest) :=
  cutAt_append (isUncut_toDigits (ne_of_isDigit (by decide)) n) (beq_self_eq_true '-') rest

/-- **Two ends of a range** are read again. -/
theorem readRange_pair {r : Bounds} (h : r.IsWritten) :
    readRange (Nat.toDigits 10 r.least ++ '-' :: Nat.toDigits 10 r.greatest) = .ok r := by
  have hleast := readNumber_toDigits (Nat.le_trans h.proper h.small)
  have hgreatest := readNumber_toDigits h.small
  have hproper : r.isEmpty = false := by simpa [Bounds.isEmpty] using h.proper
  unfold readRange
  rw [cutAt_toDigits]
  -- There is an upper end, since a number has a digit.
  cases hdigits : Nat.toDigits 10 r.greatest with
  | nil => exact absurd hdigits Nat.toDigits_ne_nil
  | cons d digits =>
    rw [hdigits] at hgreatest
    simp [hleast, hgreatest, hproper, bind, Except.bind, pure, Except.pure]

/-- A range is written as **one number, a number and an open end, or two numbers**. -/
theorem toList_text_bounds (r : Bounds) :
    r.least = r.greatest ∧ r.text.toList = Nat.toDigits 10 r.least ∨
    r.greatest = maxWord32 ∧ r.text.toList = Nat.toDigits 10 r.least ++ ['-'] ∨
    r.text.toList = Nat.toDigits 10 r.least ++ '-' :: Nat.toDigits 10 r.greatest := by
  unfold Bounds.text
  split
  · next hone => exact .inl ⟨hone, toList_toString _⟩
  split
  · next hopen =>
    refine .inr (.inl ⟨hopen, ?_⟩)
    simp only [String.toList_append, toList_toString]
    rfl
  · refine .inr (.inr ?_)
    simp only [String.toList_append, toList_toString, List.append_assoc]
    rfl

/-- **A range that was written** is read again. -/
theorem readRange_text {r : Bounds} (h : r.IsWritten) : readRange r.text.toList = .ok r := by
  have hread := readNumber_toDigits (Nat.le_trans h.proper h.small)
  have hproper : r.isEmpty = false := by simpa [Bounds.isEmpty] using h.proper
  rcases toList_text_bounds r with ⟨hone, htext⟩ | ⟨hopen, htext⟩ | htext
  · -- One number, without a sign that would cut it.
    obtain ⟨least, greatest⟩ := r
    cases hone
    have hcut : cutAt (· == '-') (Nat.toDigits 10 least) = none :=
      cutAt_of_isUncut (isUncut_toDigits (ne_of_isDigit (by decide)) least)
    rw [htext, readRange, hcut]
    simp [hread, Bounds.exactly, hproper, bind, Except.bind, pure, Except.pure]
  -- A range without an end is written with its sign, and nothing behind it.
  · obtain ⟨least, greatest⟩ := r
    have hopen : greatest = maxWord32 := hopen
    subst hopen
    rw [htext, readRange, cutAt_toDigits]
    simp [hread, Bounds.atLeast, hproper, bind, Except.bind, pure, Except.pure]
  · rw [htext]
    exact readRange_pair h

theorem not_endsTerm_of_isDigit (c : Char) (hc : c.isDigit = true) : endsTerm c = false := by
  have hrange : 48 ≤ c.toNat ∧ c.toNat ≤ 57 := by
    simpa [Char.isDigit, UInt32.le_iff_toNat_le] using hc
  have hne : c ≠ '|' := by
    rintro rfl
    exact absurd hrange.2 (by decide)
  refine Bool.or_eq_false_iff.mpr ⟨?_, beq_eq_false_iff_ne.mpr hne⟩
  simp only [isBlank, Bool.or_eq_false_iff, Bool.and_eq_false_iff, decide_eq_false_iff_not]
  omega

/-- A range is written within a term. -/
theorem isUncut_bounds (r : Bounds) : IsUncut endsTerm r.text.toList := by
  have hdigits := isUncut_toDigits not_endsTerm_of_isDigit
  have hsign : endsTerm '-' = false := by decide
  rcases toList_text_bounds r with ⟨-, htext⟩ | ⟨-, htext⟩ | htext <;> rw [htext]
  · exact hdigits _
  · exact (hdigits _).append (isUncut_cons.mpr ⟨hsign, List.forall_mem_nil _⟩)
  · exact (hdigits _).append (isUncut_cons.mpr ⟨hsign, hdigits _⟩)

end Query

/-! ## §2 Fields and values -/

namespace Condition

/-- The field that writes the condition. -/
def field : Condition → String
  | pattern .. => "pattern"
  | anagram .. => "anagram"
  | subanagram .. => "subanagram"
  | consist .. => "consist"
  | length _ => "length"
  | containing .. => "include"
  | takesFront .. => "prefix"
  | takesBack .. => "suffix"
  | vowels _ => "vowels"
  | distinct _ => "unique"
  | points _ => "points"
  | anagrams _ => "anagrams"
  | rank _ lax => rankField lax
  | inSet .. => "set"
  | inList .. => "list"
  | window _ lax legacy => windowField lax legacy

/-- The fields that are written. -/
def fields : List String :=
  ["pattern", "anagram", "subanagram", "consist", "length", "include", "prefix", "suffix", "vowels",
    "unique", "points", "anagrams", "problax", "prob", "set", "list", "limitlegacy", "limitlax",
    "limit"]

theorem field_mem_fields (c : Condition) : c.field ∈ fields := by
  cases c with
  | rank range lax => cases lax <;> simp [field, rankField, fields]
  | window range lax legacy => cases lax <;> cases legacy <;> simp [field, windowField, fields]
  | _ => simp [field, fields]

/-- A field is cut nowhere and is not taken for a negation. -/
theorem isUncut_field (c : Condition) :
    IsUncut (· == ':') c.field.toList ∧ IsUncut Query.endsTerm c.field.toList ∧
      c.field.toList.head? ≠ some '-' := by
  have hall : ∀ name ∈ fields, IsUncut (· == ':') name.toList ∧
      IsUncut Query.endsTerm name.toList ∧ name.toList.head? ≠ some '-' := by
    decide +kernel
  exact hall c.field c.field_mem_fields

/-- The value that is written behind the field. -/
def value : Condition → List Char
  | pattern text _ => text.toList
  | anagram letters _ => letters.toList
  | subanagram letters _ => letters.toList
  | consist letters lengths _ => letters.toList ++
    ':' :: (Nat.toDigits 10 lengths.least ++ '-' :: Nat.toDigits 10 lengths.greatest)
  | length range => range.text.toList
  | containing letters _ => letters.toList
  | takesFront front _ => front.toList
  | takesBack back _ => back.toList
  | vowels range => range.text.toList
  | distinct range => range.text.toList
  | points range => range.text.toList
  | anagrams range => range.text.toList
  | rank range _ => range.text.toList
  | inSet set _ => set.name.toList
  | inList words _ => [','].intercalate (words.map String.toList)
  | window range _ _ => range.text.toList

/-- **A condition is written** as a sign, a field and a value. -/
theorem toList_text (c : Condition) :
    c.text.toList = (sign c.isNegated).toList ++ (c.field.toList ++ ':' :: c.value) := by
  have hshown (text : String) : toString text = text := rfl
  have hplain : sign false = "" := rfl
  cases c with
  | consist letters lengths negated => simp [text, isNegated, field, value, hshown]
  | inList words negated => simp [text, isNegated, field, value, String.toList_intercalate]
  | pattern text negated => simp [Condition.text, isNegated, field, value, hshown]
  | rank range lax => cases lax <;> simp [text, isNegated, field, value, rankField, hshown, hplain]
  | window range lax legacy =>
    cases lax <;> cases legacy <;> simp [text, isNegated, field, value, windowField, hshown, hplain]
  | _ => simp [text, isNegated, field, value, hshown, hplain]

end Condition

namespace Query

/-- A field that takes a text. -/
theorem readField_text (field : String) (make : String → Condition)
    (hfield : ∀ value, readField field.toList value =
      do pure (make (← readText field.toList value)))
    {text : String} (h : IsValue text) :
    readField field.toList text.toList = .ok (make text.toUpper) := by
  have hread : readText field.toList text.toList = .ok text.toUpper := by
    simp [readText, h.ne_nil]
  rw [hfield, hread]
  rfl

/-- A field that takes a range. -/
theorem readField_range (field : String) (make : Bounds → Condition)
    (hfield : ∀ value, readField field.toList value = do pure (make (← readRange value)))
    {r : Bounds} (h : r.IsWritten) : readField field.toList r.text.toList = .ok (make r) := by
  rw [hfield, readRange_text h]
  rfl

/-- **Letters and lengths that were written** are read again. -/
theorem readConsist_value {letters : String} {lengths : Bounds} (hletters : IsCapitalValue letters)
    (hcolon : IsUncut (· == ':') letters.toList) (hlengths : lengths.IsWritten) :
    readConsist (letters.toList ++
      ':' :: (Nat.toDigits 10 lengths.least ++ '-' :: Nat.toDigits 10 lengths.greatest)) =
      .ok (.consist letters lengths false) := by
  unfold readConsist
  rw [cutAt_append hcolon (beq_self_eq_true ':')]
  dsimp only
  rw [readRange_pair hlengths]
  simp [hletters.ne_nil, hletters.upper, bind, Except.bind, pure, Except.pure]

theorem readPositive_consist (value : List Char) :
    readPositive ("consist".toList ++ ':' :: value) = readConsist value := by
  have hcolon : IsUncut (· == ':') "consist".toList := by decide +kernel
  unfold readPositive
  rw [cutAt_append hcolon (beq_self_eq_true ':')]
  rfl

/-- The field of letters is not taken for a negation. -/
theorem readTerm_consist (value : List Char) :
    readTerm ("consist".toList ++ ':' :: value) = readConsist value := by
  unfold readTerm
  split
  · next term heq => simp at heq
  · exact readPositive_consist value

/-- Lengths of which none is left are written as `1-0`, and no range. -/
theorem readConsist_of_no_length {letters : List Char} (hcolon : IsUncut (· == ':') letters) :
    readConsist (letters ++ ':' :: (Nat.toDigits 10 1 ++ '-' :: Nat.toDigits 10 0)) =
      .error (.emptyRange "1-0") := by
  have hrange : readRange (Nat.toDigits 10 1 ++ '-' :: Nat.toDigits 10 0) =
      .error (.emptyRange "1-0") := by rfl
  unfold readConsist
  rw [cutAt_append hcolon (beq_self_eq_true ':')]
  dsimp only
  rw [hrange]
  rfl

/-- **A list that was written** is read again. -/
theorem readList_value {words : List String}
    (h : ∀ w ∈ words, IsCapitalValue w ∧ IsUncut (· == ',') w.toList) :
    ((splitBy (· == ',') ([','].intercalate (words.map String.toList))).filter
      (!·.isEmpty)).map (fun w => (String.ofList w).toUpper) = words := by
  by_cases hempty : words = []
  · -- No word at all is written as nothing, which is one piece without signs.
    rw [hempty]
    rfl
  · have hpieces : ∀ piece ∈ words.map String.toList, IsUncut (· == ',') piece := by
      intro piece hpiece
      obtain ⟨w, hw, rfl⟩ := List.mem_map.mp hpiece
      exact (h w hw).2
    have hne : ∀ piece ∈ words.map String.toList, (!piece.isEmpty) = true := by
      intro piece hpiece
      obtain ⟨w, hw, rfl⟩ := List.mem_map.mp hpiece
      simpa using (h w hw).1.ne_nil
    rw [splitBy_intercalate (by simpa using hempty) hpieces (beq_self_eq_true ','),
      List.filter_eq_self.mpr hne, List.map_map]
    refine (List.map_congr_left fun w hw => ?_).trans (List.map_id words)
    rw [Function.comp_apply, String.ofList_toList, (h w hw).1.upper]
    rfl

end Query

namespace Condition

/-- **A value that was written is read again**, the pattern in upper case. -/
theorem readField_value {c : Condition} (h : c.IsWritten) (hpositive : c.isNegated = false) :
    Query.readField c.field.toList c.value = .ok c.upperPattern := by
  have hcapital (field : String) (make : String → Condition)
      (hfield : ∀ value, Query.readField field.toList value =
        do pure (make (← Query.readText field.toList value)))
      {text : String} (h : Query.IsCapitalValue text) :
      Query.readField field.toList text.toList = .ok (make text) := by
    rw [Query.readField_text field make hfield h.toIsValue, h.upper]
  cases c with
  | pattern text negated =>
    cases hpositive
    exact Query.readField_text "pattern" (pattern · false) (fun _ => rfl) h
  | anagram letters negated =>
    cases hpositive
    exact hcapital "anagram" (anagram · false) (fun _ => rfl) h
  | subanagram letters negated =>
    cases hpositive
    exact hcapital "subanagram" (subanagram · false) (fun _ => rfl) h
  | containing letters negated =>
    cases hpositive
    exact hcapital "include" (containing · false) (fun _ => rfl) h
  | takesFront front negated =>
    cases hpositive
    exact hcapital "prefix" (takesFront · false) (fun _ => rfl) h
  | takesBack back negated =>
    cases hpositive
    exact hcapital "suffix" (takesBack · false) (fun _ => rfl) h
  | consist letters lengths negated =>
    cases hpositive
    obtain ⟨hletters, hcolon, hlengths⟩ := h
    have hfield (value : List Char) :
        Query.readField "consist".toList value = Query.readConsist value := rfl
    exact (hfield _).trans (Query.readConsist_value hletters hcolon hlengths)
  | inSet set negated =>
    cases hpositive
    have hfield : String.ofList (lower "set".toList) = "set" := rfl
    have hname : StudySet.ofName? (String.ofList set.name.toList) = some set := by
      rw [String.ofList_toList, StudySet.ofName?_name]
    have hread : Query.readField "set".toList set.name.toList = .ok (inSet set false) := by
      simp only [Query.readField, hfield, hname]
    exact hread
  | inList words negated =>
    cases hpositive
    have hfield (value : List Char) : Query.readField "list".toList value =
        .ok (inList (((splitBy (· == ',') value).filter (!·.isEmpty)).map fun w =>
          (String.ofList w).toUpper) false) := rfl
    refine (hfield ([','].intercalate (words.map String.toList))).trans ?_
    rw [Query.readList_value h]
    rfl
  | length r => exact Query.readField_range "length" length (fun _ => rfl) h
  | vowels r => exact Query.readField_range "vowels" vowels (fun _ => rfl) h
  | distinct r => exact Query.readField_range "unique" distinct (fun _ => rfl) h
  | points r => exact Query.readField_range "points" points (fun _ => rfl) h
  | anagrams r => exact Query.readField_range "anagrams" anagrams (fun _ => rfl) h
  | rank range lax =>
    cases lax with
    | false => exact Query.readField_range "prob" (rank · false) (fun _ => rfl) h
    | true => exact Query.readField_range "problax" (rank · true) (fun _ => rfl) h
  | window range lax legacy =>
    obtain ⟨hwritten, hlegacy⟩ := h
    cases legacy with
    | false =>
      cases lax with
      | false => exact Query.readField_range "limit" (window · false false) (fun _ => rfl) hwritten
      | true => exact Query.readField_range "limitlax" (window · true false) (fun _ => rfl) hwritten
    | true =>
      -- A legacy window was never read as a lax one.
      cases hlegacy rfl
      exact Query.readField_range "limitlegacy" (window · false true) (fun _ => rfl) hwritten

/-! ## §3 Terms -/

theorem isWritten_negate {c : Condition} (h : c.IsWritten) : c.negate.IsWritten := by
  cases c <;> exact h

/-- A positive condition that was written is read again. -/
theorem readPositive_text {c : Condition} (h : c.IsWritten) (hpositive : c.isNegated = false) :
    Query.readPositive (c.field.toList ++ ':' :: c.value) = .ok c.upperPattern := by
  unfold Query.readPositive
  rw [cutAt_append c.isUncut_field.1 (beq_self_eq_true ':')]
  exact readField_value h hpositive

/-- **A condition that was written is read again**, its pattern in upper case. -/
theorem readTerm_text {c : Condition} (h : c.IsWritten) :
    Query.readTerm c.text.toList = .ok c.upperPattern := by
  rw [toList_text]
  cases hnegated : c.isNegated with
  | false =>
    have hread := readPositive_text h hnegated
    -- No field begins with the sign of a negation.
    have hsign : ∀ term, c.field.toList ++ ':' :: c.value ≠ '-' :: term := by
      intro term heq
      have hhead := c.isUncut_field.2.2
      cases hfield : c.field.toList with
      | nil => simp [hfield] at heq
      | cons d rest =>
        rw [hfield] at heq hhead
        exact hhead (congrArg some (List.cons.inj heq).1)
    show Query.readTerm (c.field.toList ++ ':' :: c.value) = _
    unfold Query.readTerm
    split
    · next term heq => exact absurd heq (hsign term)
    · exact hread
  | true =>
    have hread : Query.readPositive (c.field.toList ++ ':' :: c.value) =
        .ok c.negate.upperPattern := by
      have hfield : c.negate.field = c.field := by cases c <;> rfl
      have hvalue : c.negate.value = c.value := by cases c <;> rfl
      have hpositive : c.negate.isNegated = false := by
        cases c <;> simp_all [isNegated, negate]
      rw [← hfield, ← hvalue]
      exact readPositive_text (isWritten_negate h) hpositive
    have hback : c.negate.upperPattern.negate = c.upperPattern := by
      cases c <;> simp [negate, upperPattern]
    have hnegated : c.upperPattern.isNegated = true := by
      cases c <;> exact hnegated
    show Query.readTerm ('-' :: (c.field.toList ++ ':' :: c.value)) = _
    simp [Query.readTerm, hread, hback, hnegated, bind, Except.bind]

/-- **A condition that was cut short** is written, and refused for its lengths. -/
theorem readTerm_of_isCutShort {c : Condition} (h : c.IsCutShort) :
    Query.readTerm c.text.toList = .error (.emptyRange "1-0") := by
  obtain ⟨letters, negated, rfl, -, -, hcolon⟩ := h
  have hconsist (negated : Bool) : Query.readConsist (consist letters ⟨1, 0⟩ negated).value =
      .error (.emptyRange "1-0") := Query.readConsist_of_no_length hcolon
  have htext (negated : Bool) : (consist letters ⟨1, 0⟩ negated).text.toList =
      (sign negated).toList ++ ("consist".toList ++
        ':' :: (consist letters ⟨1, 0⟩ negated).value) := toList_text _
  rw [htext]
  -- A sign in front changes nothing, as the range fails before it is used.
  cases negated with
  | false => exact (Query.readTerm_consist _).trans (hconsist false)
  | true =>
    show Query.readTerm ('-' :: ("consist".toList ++ ':' :: (consist letters ⟨1, 0⟩ true).value)) = _
    rw [Query.readTerm, Query.readPositive_consist, hconsist]
    rfl

theorem isUncut_consist {letters : String} (h : Query.IsCapitalValue letters) (lengths : Bounds) :
    IsUncut Query.endsTerm (letters.toList ++
      ':' :: (Nat.toDigits 10 lengths.least ++ '-' :: Nat.toDigits 10 lengths.greatest)) := by
  have hdigits := Query.isUncut_toDigits Query.not_endsTerm_of_isDigit
  exact h.uncut.append (isUncut_cons.mpr ⟨by decide,
    (hdigits _).append (isUncut_cons.mpr ⟨by decide, hdigits _⟩)⟩)

theorem isUncut_value {c : Condition} (h : c.IsWritten) : IsUncut Query.endsTerm c.value := by
  cases c with
  | pattern text negated => exact h.uncut
  | anagram letters negated => exact h.uncut
  | subanagram letters negated => exact h.uncut
  | containing letters negated => exact h.uncut
  | takesFront front negated => exact h.uncut
  | takesBack back negated => exact h.uncut
  | consist letters lengths negated => exact isUncut_consist h.1 lengths
  | inSet set negated =>
    have hall : ∀ set : StudySet, IsUncut Query.endsTerm set.name.toList := by
      intro set
      cases set <;> decide +kernel
    exact hall set
  | inList words negated =>
    refine isUncut_intercalate (fun piece hpiece => ?_) (by decide)
    obtain ⟨w, hw, rfl⟩ := List.mem_map.mp hpiece
    exact (h w hw).1.uncut
  | _ => exact Query.isUncut_bounds _

/-- **What was written is one term**: it does not end within, and there is something of it. -/
theorem isUncut_text {c : Condition} (h : c.IsWritten ∨ c.IsCutShort) :
    IsUncut Query.endsTerm c.text.toList := by
  have hsign (negated : Bool) : IsUncut Query.endsTerm (sign negated).toList := by
    cases negated <;> decide
  have hvalue : IsUncut Query.endsTerm c.value := by
    rcases h with hwritten | ⟨letters, negated, rfl, -, hletters, -⟩
    · exact isUncut_value hwritten
    · exact isUncut_consist hletters _
  rw [toList_text]
  exact (hsign _).append (c.isUncut_field.2.1.append
    (isUncut_cons.mpr ⟨by decide, hvalue⟩))

theorem toList_text_ne_nil (c : Condition) : c.text.toList ≠ [] := by
  rw [toList_text]
  simp

end Condition

/-! ## §4 Queries -/

namespace Query

/-- Conditions are written with a blank between each two. -/
theorem toList_intercalate_text (conditions : List Condition) :
    (" ".intercalate (conditions.map Condition.text)).toList =
      [' '].intercalate (conditions.map (·.text.toList)) := by
  rw [String.toList_intercalate, List.map_map]
  rfl

section Text

variable {spec : SearchSpec} (h : ∀ c ∈ spec.conditions, c.IsWritten ∨ c.IsCutShort)
include h

theorem isUncut_of_mem_map :
    ∀ piece ∈ spec.conditions.map (·.text.toList), IsUncut endsTerm piece := by
  intro piece hpiece
  obtain ⟨c, hc, rfl⟩ := List.mem_map.mp hpiece
  exact Condition.isUncut_text (h c hc)

/-- **The terms of a specification that was written** are its conditions. -/
theorem terms_text (hne : spec.conditions ≠ []) :
    terms spec.text.toList = spec.conditions.map (·.text.toList) := by
  have hpieces := splitBy_intercalate (by simpa using hne) (isUncut_of_mem_map h)
    (show endsTerm ' ' = true by decide)
  have hfull : ∀ piece ∈ spec.conditions.map (·.text.toList), (!piece.isEmpty) = true := by
    intro piece hpiece
    obtain ⟨c, -, rfl⟩ := List.mem_map.mp hpiece
    simpa using c.toList_text_ne_nil
  unfold terms SearchSpec.text
  dsimp only
  split
  · rw [toList_intercalate_text, hpieces, List.filter_eq_self.mpr hfull]
  · -- Behind the bar that tells a choice there is no term.
    have hbar : " |".toList = ' ' :: ['|'] := rfl
    rw [String.toList_append, toList_intercalate_text, hbar, splitBy_append_cons (by decide),
      hpieces, List.filter_append, List.filter_eq_self.mpr hfull]
    exact List.append_nil _

/-- **A choice is told** by a bar, which nothing else is written with. -/
theorem contains_text : spec.text.toList.contains '|' = !spec.conjunction := by
  -- No piece has a bar in it, so the text has none but the one at its end.
  have hbar : (" ".intercalate (spec.conditions.map Condition.text)).toList.contains '|' = false := by
    have hpieces : ∀ piece ∈ spec.conditions.map (·.text.toList), IsUncut (· == '|') piece :=
      fun piece hpiece c hc =>
        (Bool.or_eq_false_iff.mp (isUncut_of_mem_map h piece hpiece c hc)).2
    have huncut := isUncut_intercalate hpieces (show (' ' == '|') = false by decide)
    rw [toList_intercalate_text, Bool.eq_false_iff]
    intro hc
    cases huncut '|' (List.contains_iff_mem.mp hc)
  unfold SearchSpec.text
  dsimp only
  split
  · next hconjunction => rw [hbar, hconjunction]; rfl
  · next hchoice => simp [hchoice]

/-- A specification that was written is read **term by term**. -/
theorem read_text (hne : spec.conditions ≠ []) :
    read spec.text = ((spec.conditions.map (·.text.toList)).mapM readTerm).map
      (⟨·, spec.conjunction⟩) := by
  have hcontains := contains_text h
  have hterms := terms_text h hne
  unfold read
  split
  · next hnil =>
    rw [hnil] at hterms
    exact absurd hterms.symm (by simpa using hne)
  · rw [hterms, hcontains, Bool.not_not]
    cases (spec.conditions.map (·.text.toList)).mapM readTerm <;> rfl

/-- **A specification that was cut short** is written, and what is written is refused. -/
theorem read_text_of_isCutShort (hcut : ∃ c ∈ spec.conditions, c.IsCutShort) :
    read spec.text = .error (.emptyRange "1-0") := by
  obtain ⟨c, hc, hcut⟩ := hcut
  have hrefused : (spec.conditions.map (·.text.toList)).mapM readTerm =
      .error (.emptyRange "1-0") := by
    refine mapM_eq_error (fun term hterm => ?_)
      ⟨_, List.mem_map_of_mem hc, Condition.readTerm_of_isCutShort hcut⟩
    obtain ⟨d, hd, rfl⟩ := List.mem_map.mp hterm
    exact (h d hd).imp (fun hwritten => ⟨_, Condition.readTerm_text hwritten⟩)
      Condition.readTerm_of_isCutShort
  rw [read_text h (List.ne_nil_of_mem hc), hrefused]
  rfl

end Text

/-- **A query that is read, written and read again** gives the same specification, its patterns in
upper case: the same conditions in the same order, joined in the same way. The one exception are
letters whose number does not fit into 32 bits and leaves no length when it is cut: such a condition
is read, and what is written of it is refused. -/
theorem read_text_of_read {text : String} {spec : SearchSpec} (h : read text = .ok spec) :
    ((∀ c ∈ spec.conditions, ¬ c.IsCutShort) → read spec.text = .ok spec.upperPatterns) ∧
      ((∃ c ∈ spec.conditions, c.IsCutShort) → read spec.text = .error (.emptyRange "1-0")) := by
  obtain ⟨hne, hconditions⟩ := isWritten_of_read h
  refine ⟨fun hfull => ?_, read_text_of_isCutShort hconditions⟩
  have hread : (spec.conditions.map (·.text.toList)).mapM readTerm =
      .ok (spec.conditions.map Condition.upperPattern) := by
    rw [mapM_eq_ok_iff, List.forall₂_map_left_iff, List.forall₂_map_right_iff, List.forall₂_same]
    exact fun c hc => Condition.readTerm_text ((hconditions c hc).resolve_right (hfull c hc))
  rw [read_text hconditions hne, hread]
  rfl

/-- A choice with a pattern in lower case, a set that is excluded, default lengths and a list. -/
theorem read_text_of_choice :
    let spec : SearchSpec := ⟨[.pattern "c?t" false, .inSet .hookWords true,
      .consist "TEA" ⟨1, 3⟩ false, .length ⟨3, maxWord32⟩, .inList ["AT", "TA"] false], false⟩
    read "c?t -set:Hook-Words consist:tea | length:3- list:at,,ta" = .ok spec ∧
      spec.text = "pattern:c?t -set:hook-words consist:TEA:1-3 length:3- list:AT,TA |" ∧
      read spec.text = .ok spec.upperPatterns := by
  intro spec
  have hread : read "c?t -set:Hook-Words consist:tea | length:3- list:at,,ta" = .ok spec := by
    decide +kernel
  refine ⟨hread, by decide +kernel, (read_text_of_read hread).1 ?_⟩
  rintro c hc ⟨letters, negated, rfl, -⟩
  simp [spec] at hc

/-- Letters without lengths are read with any length up to their number, **cut to 32 bits**. -/
theorem read_letters {letters : List Char} (hne : letters ≠ []) (huncut : IsUncut endsTerm letters)
    (hcolon : IsUncut (· == ':') letters) :
    read (String.ofList ("consist:".toList ++ letters)) =
      .ok ⟨[.consist (String.ofList letters).toUpper
        ⟨1, (String.ofList letters).utf8ByteSize % (maxWord32 + 1)⟩ false], true⟩ := by
  have hterm : IsUncut endsTerm ("consist:".toList ++ letters) := IsUncut.append (by decide) huncut
  have hterms : terms ("consist:".toList ++ letters) = ["consist:".toList ++ letters] := by
    rw [terms, splitBy_of_isUncut hterm]
    rfl
  have hbar : ("consist:".toList ++ letters).contains '|' = false := by
    rw [Bool.eq_false_iff]
    intro hmem
    have hends := hterm '|' (List.contains_iff_mem.mp hmem)
    cases hends
  -- The term is cut at its only colon, and no length is given behind the letters.
  have hread : readTerm ("consist:".toList ++ letters) = readConsist letters := by
    have hfield : "consist:".toList = "consist".toList ++ [':'] := rfl
    rw [hfield, List.append_assoc]
    exact readTerm_consist letters
  have hletters : readConsist letters = .ok (.consist (String.ofList letters).toUpper
      ⟨1, (String.ofList letters).utf8ByteSize % (maxWord32 + 1)⟩ false) := by
    unfold readConsist
    rw [cutAt_of_isUncut hcolon]
    simp [hne, bind, Except.bind, pure, Except.pure]
  unfold read
  rw [String.toList_ofList, hterms, hbar]
  dsimp only
  rw [List.mapM_cons, hread, hletters]
  rfl

/-- **2³² letters have no length left.** They are read, and what is written of them is not. -/
theorem read_text_of_long_letters :
    ∃ text spec, read text = .ok spec ∧ spec = ⟨[.consist
        (String.ofList (List.replicate (maxWord32 + 1) 'A')) ⟨1, 0⟩ false], true⟩ ∧
      read spec.text = .error (.emptyRange "1-0") := by
  -- The number of letters is never written out.
  obtain ⟨n, hn⟩ : ∃ n, n = maxWord32 + 1 := ⟨_, rfl⟩
  rw [← hn]
  have hne : List.replicate n 'A' ≠ [] := by
    rw [Ne, List.replicate_eq_nil_iff, hn]
    exact Nat.succ_ne_zero _
  have hletter {cut : Char → Bool} (hcut : cut 'A' = false) : IsUncut cut (List.replicate n 'A') :=
    fun c hc => (List.eq_of_mem_replicate hc) ▸ hcut
  have hread := read_letters hne (hletter (by decide)) (hletter (by decide))
  have hupper : (String.ofList (List.replicate n 'A')).toUpper =
      String.ofList (List.replicate n 'A') := by
    rw [← String.toList_inj, toList_toUpper, String.toList_ofList, List.map_replicate]
    rfl
  rw [utf8ByteSize_replicate, hupper, hn, Nat.mod_self, ← hn] at hread
  obtain ⟨-, hconditions⟩ := isWritten_of_read hread
  have hmem := List.mem_singleton_self
    (Condition.consist (String.ofList (List.replicate n 'A')) ⟨1, 0⟩ false)
  -- No condition with an empty range can be written.
  have hcut := (hconditions _ hmem).resolve_left fun hwritten =>
    absurd hwritten.2.2.proper (by decide)
  exact ⟨_, _, hread, rfl, read_text_of_isCutShort hconditions ⟨_, hmem, hcut⟩⟩

end Query

end WordStudy
