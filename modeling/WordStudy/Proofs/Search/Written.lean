import Mathlib.Data.List.Forall2
import WordStudy.Proofs.Match.Case
import WordStudy.Proofs.Text.Pieces
import WordStudy.Search.Query

/-!
# What was read can be written

A query is a text that is cut at blanks, bars, colons, commas and hyphens. What is read from it has
**no sign left that would cut it again**, no empty range and no number beyond 32 bits, so that it can
be written. Only one thing cannot: lengths that were not told, of letters whose number does not fit
into 32 bits.
-/

namespace WordStudy

open Text

/-! ## §1 Reading in steps -/

theorem exists_of_bind_eq_ok {ε α β : Type} {x : Except ε α} {f : α → Except ε β} {b : β}
    (h : x >>= f = .ok b) : ∃ a, x = .ok a ∧ f a = .ok b := by
  cases x with
  | error cause => cases h
  | ok a => exact ⟨a, rfl, h⟩

/-- Texts are read one after the other if each is read. -/
theorem mapM_eq_ok_iff {ε α β : Type} {f : α → Except ε β} {l : List α} {r : List β} :
    l.mapM f = .ok r ↔ List.Forall₂ (fun a b => f a = .ok b) l r := by
  induction l generalizing r with
  | nil =>
    rw [List.mapM_nil, List.forall₂_nil_left_iff]
    exact ⟨fun h => (Except.ok.inj h).symm, fun h => congrArg Except.ok h.symm⟩
  | cons a l ih =>
    rw [List.mapM_cons]
    constructor
    · intro h
      obtain ⟨b, hb, h⟩ := exists_of_bind_eq_ok h
      obtain ⟨rest, hrest, h⟩ := exists_of_bind_eq_ok h
      cases h
      exact .cons hb (ih.mp hrest)
    · rintro (_ | ⟨hb, hrest⟩)
      rw [hb, ih.mpr hrest]
      rfl

/-- Where one text is refused for a reason that all refusals have, **nothing is read**. -/
theorem mapM_eq_error {ε α β : Type} {f : α → Except ε β} {cause : ε} {l : List α}
    (hall : ∀ a ∈ l, (∃ b, f a = .ok b) ∨ f a = .error cause) (hrefused : ∃ a ∈ l, f a = .error cause) :
    -- The first cause is the one given, and all causes are the same.
    l.mapM f = .error cause := by
  induction l with
  | nil => simp at hrefused
  | cons a l ih =>
    obtain ⟨hfirst, hrest⟩ := List.forall_mem_cons.mp hall
    rw [List.mapM_cons]
    rcases hfirst with ⟨b, hb⟩ | herror
    · -- The first text is read, so that another one is refused.
      have hbehind : ∃ a ∈ l, f a = .error cause := by
        obtain ⟨d, hd, hfails⟩ := hrefused
        rcases List.mem_cons.mp hd with rfl | hd
        · cases hb.symm.trans hfails
        · exact ⟨d, hd, hfails⟩
      rw [hb, ih hrest hbehind]
      rfl
    · rw [herror]
      rfl

theorem exists_mem_of_forall₂ {α β : Type} {R : α → β → Prop} {l : List α} {r : List β}
    (h : List.Forall₂ R l r) {b : β} (hb : b ∈ r) : ∃ a ∈ l, R a b := by
  induction h with
  | nil => cases hb
  | cons hab hrest ih =>
    rcases List.mem_cons.mp hb with rfl | hb
    · exact ⟨_, List.mem_cons_self, hab⟩
    · obtain ⟨a, ha, hab⟩ := ih hb
      exact ⟨a, List.mem_cons_of_mem _ ha, hab⟩

/-! ## §2 What was read -/

/-- A range that can be written: it is not empty, and its ends are numbers of 32 bits. -/
structure Bounds.IsWritten (r : Bounds) : Prop where
  proper : r.least ≤ r.greatest
  small : r.greatest ≤ maxWord32

namespace Query

/-- A value that can be written: there is something of it, and no term ends in it. -/
structure IsValue (text : String) : Prop where
  ne_nil : text.toList ≠ []
  uncut : IsUncut endsTerm text.toList

/-- A value that is in upper case as well. -/
structure IsCapitalValue (text : String) : Prop extends IsValue text where
  upper : text.toUpper = text

end Query

namespace Condition

/-- **A condition that can be written.** -/
def IsWritten : Condition → Prop
  | pattern text _ => Query.IsValue text
  | anagram letters _ => Query.IsCapitalValue letters
  | subanagram letters _ => Query.IsCapitalValue letters
  | consist letters lengths _ =>
    Query.IsCapitalValue letters ∧ IsUncut (· == ':') letters.toList ∧ lengths.IsWritten
  | length range => range.IsWritten
  | containing letters _ => Query.IsCapitalValue letters
  | takesFront front _ => Query.IsCapitalValue front
  | takesBack back _ => Query.IsCapitalValue back
  | vowels range => range.IsWritten
  | distinct range => range.IsWritten
  | points range => range.IsWritten
  | anagrams range => range.IsWritten
  | rank range _ => range.IsWritten
  | inSet _ _ => True
  | inList words _ => ∀ w ∈ words, Query.IsCapitalValue w ∧ IsUncut (· == ',') w.toList
  | window range lax legacy => range.IsWritten ∧ (legacy = true → lax = false)

/-- A condition on so many letters that their number, **cut to 32 bits**, is zero, and no length is
left. The letters themselves can be written. -/
def IsCutShort (c : Condition) : Prop :=
  ∃ letters negated, c = consist letters ⟨1, 0⟩ negated ∧ maxWord32 < letters.utf8ByteSize ∧
    Query.IsCapitalValue letters ∧ IsUncut (· == ':') letters.toList

/-- The condition with its pattern, if it has one, in upper case. -/
def upperPattern : Condition → Condition
  | pattern text negated => pattern text.toUpper negated
  | c => c

end Condition

/-- The specification with its patterns in upper case. -/
def SearchSpec.upperPatterns (spec : SearchSpec) : SearchSpec :=
  { spec with conditions := spec.conditions.map Condition.upperPattern }

namespace Query

/-- Nothing that is in upper case ends a term unless it did before. -/
theorem endsTerm_toUpper (c : Char) : endsTerm c.toUpper = endsTerm c :=
  toUpper_cases (p := fun d c => endsTerm d = endsTerm c) (fun _ => rfl)
    (forall_mem_of_all (by decide)) c

theorem toList_toUpper (text : String) : text.toUpper.toList = text.toList.map Char.toUpper := by
  simp [String.toUpper, String.toList_map]

/-- **A value that is put in upper case** can be written. -/
theorem isCapitalValue_toUpper {value : List Char} (hne : value ≠ [])
    (huncut : IsUncut endsTerm value) : IsCapitalValue (String.ofList value).toUpper := by
  refine ⟨⟨?_, ?_⟩, toUpper_toUpper_text _⟩
  · simpa [toList_toUpper] using hne
  · intro c hc
    rw [toList_toUpper, String.toList_ofList] at hc
    obtain ⟨d, hd, rfl⟩ := List.mem_map.mp hc
    rw [endsTerm_toUpper]
    exact huncut d hd

/-- A sign that is no letter cuts a text in upper case where it cut the text. -/
theorem isUncut_toUpper {sign : Char} (hsign : sign.isAlpha = false) {value : List Char}
    (h : IsUncut (· == sign) value) :
    IsUncut (· == sign) (String.ofList value).toUpper.toList := by
  intro c hc
  rw [toList_toUpper, String.toList_ofList] at hc
  obtain ⟨d, hd, rfl⟩ := List.mem_map.mp hc
  have hne := h d hd
  rw [beq_eq_false_iff_ne] at hne ⊢
  exact fun heq => hne ((toUpper_eq_iff hsign d).mp heq)

theorem le_of_readNumber {text : List Char} {n : Nat} (h : readNumber text = .ok n) :
    n ≤ maxWord32 := by
  unfold readNumber at h
  split at h
  · next m hm =>
    cases h
    exact le_of_decimal32? hm
  · cases h

/-- **A range that was read** can be written. -/
theorem isWritten_of_readRange {value : List Char} {r : Bounds} (h : readRange value = .ok r) :
    r.IsWritten := by
  -- A range of one or two numbers is refused when it is empty.
  have hchecked {range : Bounds} (hsmall : range.greatest ≤ maxWord32)
      (h : (if range.isEmpty then .error (.emptyRange (String.ofList value)) else .ok range :
        Except QueryFault Bounds) = .ok r) : r.IsWritten := by
    split at h
    · cases h
    · next hproper =>
      cases h
      exact ⟨by simpa [Bounds.isEmpty] using hproper, hsmall⟩
  unfold readRange at h
  dsimp only at h
  split at h
  -- Without a second number the range goes up to the greatest one.
  · obtain ⟨least, -, h⟩ := exists_of_bind_eq_ok h
    exact hchecked (Nat.le_refl maxWord32) h
  · obtain ⟨least, -, h⟩ := exists_of_bind_eq_ok h
    obtain ⟨greatest, hgreatest, h⟩ := exists_of_bind_eq_ok h
    exact hchecked (le_of_readNumber hgreatest) h
  · obtain ⟨n, hn, h⟩ := exists_of_bind_eq_ok h
    exact hchecked (le_of_readNumber hn) h

/-- A text that was read can be written. -/
theorem isCapitalValue_of_readText {field value : List Char} {text : String}
    (h : readText field value = .ok text) (huncut : IsUncut endsTerm value) :
    IsCapitalValue text := by
  unfold readText at h
  split at h
  · cases h
  · next hne =>
    cases h
    exact isCapitalValue_toUpper (by simpa using hne) huncut

/-- A text in upper case has as many bytes as before. -/
theorem utf8ByteSize_toUpper (text : String) : text.toUpper.utf8ByteSize = text.utf8ByteSize := by
  -- A letter and its capital are written with as many bytes.
  have hchar (c : Char) : c.toUpper.utf8Size = c.utf8Size :=
    toUpper_cases (p := fun d c => d.utf8Size = c.utf8Size) (fun _ => rfl)
      (forall_mem_of_all (by decide)) c
  have hlist (cs : List Char) :
      (String.ofList (cs.map Char.toUpper)).utf8ByteSize = (String.ofList cs).utf8ByteSize := by
    induction cs with
    | nil => rfl
    | cons c cs ih =>
      rw [List.map_cons, String.ofList_cons, String.ofList_cons, String.utf8ByteSize_append,
        String.utf8ByteSize_append, String.utf8ByteSize_singleton, String.utf8ByteSize_singleton,
        hchar, ih]
  have htext := hlist text.toList
  rw [← toList_toUpper, String.ofList_toList, String.ofList_toList] at htext
  exact htext

/-- **Letters that were read** with their lengths can be written, unless the lengths were cut
short. -/
theorem isWritten_of_readConsist {value : List Char} {c : Condition} (h : readConsist value = .ok c)
    (huncut : IsUncut endsTerm value) : c.IsWritten ∨ c.IsCutShort := by
  unfold readConsist at h
  dsimp only at h
  split at h
  · next letters lengths hcut =>
    obtain ⟨hletters, d, -, htext⟩ := eq_of_cutAt hcut
    have hvalue : IsUncut endsTerm letters := fun d hd => huncut d (by simp [htext, hd])
    obtain ⟨r, hr, h⟩ := exists_of_bind_eq_ok h
    obtain ⟨_, heq, h⟩ := exists_of_bind_eq_ok h
    cases heq
    dsimp only at h
    split at h
    · cases h
    · next hne =>
      cases h
      exact .inl ⟨isCapitalValue_toUpper (by simpa using hne) hvalue,
        isUncut_toUpper (by decide) hletters, isWritten_of_readRange hr⟩
  · next hcut =>
    have hcolon := isUncut_toUpper (by decide) (isUncut_of_cutAt_eq_none hcut)
    obtain ⟨_, heq, h⟩ := exists_of_bind_eq_ok h
    cases heq
    dsimp only at h
    split at h
    · cases h
    · next hne =>
      cases h
      have hne : value ≠ [] := by simpa using hne
      have hcapital := isCapitalValue_toUpper hne huncut
      let size := (String.ofList value).utf8ByteSize
      -- The number of bytes is cut to nothing only if it does not fit into 32 bits.
      by_cases hzero : size % (maxWord32 + 1) = 0
      · right
        refine ⟨_, false, congrArg (Condition.consist _ ⟨1, ·⟩ false) hzero, ?_, hcapital, hcolon⟩
        rw [utf8ByteSize_toUpper]
        show maxWord32 < size
        by_contra hsmall
        rw [Nat.mod_eq_of_lt (Nat.lt_succ_of_le (Nat.le_of_not_lt hsmall))] at hzero
        have hempty := congrArg String.toList (String.utf8ByteSize_eq_zero_iff.mp hzero)
        rw [String.toList_ofList] at hempty
        exact hne hempty
      · left
        have hlt : size % (maxWord32 + 1) < maxWord32 + 1 := Nat.mod_lt _ (by decide)
        exact ⟨hcapital, hcolon, Nat.one_le_iff_ne_zero.mpr hzero, Nat.le_of_lt_succ hlt⟩

/-- **A condition that was read from a field** can be written, unless it was cut short. -/
theorem isWritten_of_readField {field value : List Char} {c : Condition}
    (h : readField field value = .ok c) (huncut : IsUncut endsTerm value) :
    c.IsWritten ∨ c.IsCutShort := by
  -- The fields differ in the condition they make of a text or of a range, and in nothing else.
  have htext {make : String → Condition} (h : (do pure (make (← readText field value))) = .ok c)
      (hmake : ∀ text, IsCapitalValue text → (make text).IsWritten) :
      c.IsWritten ∨ c.IsCutShort := by
    obtain ⟨text, hread, heq⟩ := exists_of_bind_eq_ok h
    cases heq
    exact .inl (hmake text (isCapitalValue_of_readText hread huncut))
  have hrange {make : Bounds → Condition} (h : (do pure (make (← readRange value))) = .ok c)
      (hmake : ∀ r : Bounds, r.IsWritten → (make r).IsWritten) : c.IsWritten ∨ c.IsCutShort := by
    obtain ⟨r, hread, heq⟩ := exists_of_bind_eq_ok h
    cases heq
    exact .inl (hmake r (isWritten_of_readRange hread))
  unfold readField at h
  split at h
  · exact htext h fun _ hvalue => hvalue.toIsValue
  · exact htext h fun _ hvalue => hvalue.toIsValue
  · exact htext h fun _ hvalue => hvalue
  · exact htext h fun _ hvalue => hvalue
  · exact htext h fun _ hvalue => hvalue
  · exact htext h fun _ hvalue => hvalue
  · exact isWritten_of_readConsist h huncut
  · exact hrange h fun _ hr => hr
  · exact hrange h fun _ hr => hr
  · exact htext h fun _ hvalue => hvalue
  · exact htext h fun _ hvalue => hvalue
  · exact htext h fun _ hvalue => hvalue
  · exact hrange h fun _ hr => hr
  · exact hrange h fun _ hr => hr
  · exact hrange h fun _ hr => hr
  · exact hrange h fun _ hr => hr
  · exact hrange h fun _ hr => hr
  · exact hrange h fun _ hr => hr
  -- A flag has no value of its own.
  · split at h
    · cases h
      exact .inl trivial
    · cases h
  -- A list is cut at its commas, and pieces without a letter are left out.
  · cases h
    left
    intro w hw
    obtain ⟨piece, hpiece, rfl⟩ := List.mem_map.mp hw
    obtain ⟨hmem, hne⟩ := List.mem_filter.mp hpiece
    exact ⟨isCapitalValue_toUpper (by simpa using hne)
        fun d hd => huncut d (mem_of_mem_splitBy hmem hd),
      isUncut_toUpper (by decide) (isUncut_of_mem_splitBy hmem)⟩
  · exact hrange h fun _ hr => ⟨hr, fun _ => rfl⟩
  · exact hrange h fun _ hr => ⟨hr, by simp⟩
  · exact hrange h fun _ hr => ⟨hr, fun _ => rfl⟩
  · cases h

/-- **A condition that was read** can be written, unless it was cut short. -/
theorem isWritten_of_readPositive {term : List Char} {c : Condition} (h : readPositive term = .ok c)
    (huncut : IsUncut endsTerm term) : c.IsWritten ∨ c.IsCutShort := by
  unfold readPositive at h
  split at h
  -- A term without a colon is a pattern.
  · next field value hcut =>
    obtain ⟨-, d, -, hterm⟩ := eq_of_cutAt hcut
    exact isWritten_of_readField h fun e he => huncut e (by simp [hterm, he])
  · split at h
    · cases h
    · next hne =>
      cases h
      refine .inl ⟨by simpa using hne, ?_⟩
      rw [String.toList_ofList]
      exact huncut

theorem isWritten_of_readTerm {term : List Char} {c : Condition} (h : readTerm term = .ok c)
    (huncut : IsUncut endsTerm term) : c.IsWritten ∨ c.IsCutShort := by
  unfold readTerm at h
  split at h
  · next positive =>
    obtain ⟨d, hd, h⟩ := exists_of_bind_eq_ok h
    split at h
    · cases h
      -- A negated term can be negated back, and what is cut short stays so.
      rcases isWritten_of_readPositive hd (isUncut_cons.mp huncut).2 with hwritten | hshort
      · left
        cases d <;> exact hwritten
      · obtain ⟨letters, negated, rfl, hletters⟩ := hshort
        exact .inr ⟨letters, !negated, rfl, hletters⟩
    · cases h
  · exact isWritten_of_readPositive h huncut

/-- What was read is not empty, and it can be written unless it was cut short. -/
theorem isWritten_of_read {text : String} {spec : SearchSpec} (h : read text = .ok spec) :
    spec.conditions ≠ [] ∧ ∀ c ∈ spec.conditions, c.IsWritten ∨ c.IsCutShort := by
  unfold read at h
  split at h
  · cases h
  · next hne =>
    obtain ⟨conditions, hread, h⟩ := exists_of_bind_eq_ok h
    cases h
    have hread := mapM_eq_ok_iff.mp hread
    constructor
    · rintro rfl
      exact hne (List.forall₂_nil_right_iff.mp hread)
    · intro c hc
      obtain ⟨term, hterm, hc⟩ := exists_mem_of_forall₂ hread hc
      have hpiece := (List.mem_filter.mp hterm).1
      exact isWritten_of_readTerm hc (isUncut_of_mem_splitBy hpiece)

end Query

end WordStudy
