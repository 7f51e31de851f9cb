import WordStudy.Word.Letters

/-!
# Words of capital letters

The words of a vocabulary are made of capital letters. Each of these is one byte and one character,
so that such a word is its own upper case and is read letter by letter. What is spelled in an alphabet
of other characters is at least **plain**: it is ASCII and in upper case.
-/

namespace WordStudy

open Text

/-- **Every byte is a capital letter.** -/
def Word.InCapitals (w : Word) : Prop := ∀ b ∈ w, isUpper b = true

instance (w : Word) : Decidable w.InCapitals :=
  decidable_of_iff (w.all isUpper = true) List.all_eq_true

/-! ## §1 Letters as characters -/

/-- The character of a byte. -/
def charOf (b : UInt8) : Char := Char.ofNat b.toNat

/-- What can be checked letter by letter holds of every capital letter. -/
theorem forall_isUpper {p : UInt8 → Prop} [DecidablePred p]
    (h : (alphabet.all fun b => decide (p b)) = true) {b : UInt8} (hb : isUpper b = true) : p b :=
  forall_mem_of_all h b ((mem_alphabet_iff b).mpr hb)

theorem characterAt_of_isUpper {b : UInt8} (hb : isUpper b = true) (w : Word) :
    Utf8.characterAt b w = (charOf b, 0) := by
  have hlow : b < 0x80 := forall_isUpper (p := (· < 0x80)) (by decide) hb
  simp only [Utf8.characterAt, hlow, if_true]
  rfl

namespace Word

namespace InCapitals

theorem of_cons {b : UInt8} {w : Word} (h : InCapitals (b :: w)) : w.InCapitals :=
  fun c hc => h c (by simp [hc])

/-- A word of capital letters is read as one character for each byte. -/
theorem characters {w : Word} (h : w.InCapitals) : Utf8.characters w = w.map charOf := by
  unfold Utf8.characters
  induction w with
  | nil => rfl
  | cons b w ih =>
    simp only [Utf8.charactersFrom, characterAt_of_isUpper (h b (by simp)), List.map_cons]
    rw [ih h.of_cons]

end InCapitals

/-! ## §2 Plain words -/

/-- **Every byte is an ASCII character and in upper case**, if it is a letter at all. -/
structure IsPlain (w : Word) : Prop where
  ascii : ∀ b ∈ w, b < 0x80
  upper : ∀ b ∈ w, upperByte b = b

theorem IsPlain.upper_eq {w : Word} (h : w.IsPlain) : w.upper = w := by
  rw [Word.upper, List.map_congr_left h.upper]
  exact List.map_id' w

theorem IsPlain.isAscii_eq {w : Word} (h : w.IsPlain) : w.isAscii = true :=
  List.all_eq_true.mpr fun b hb => decide_eq_true (h.ascii b hb)

theorem IsPlain.perm {v w : Word} (h : v.IsPlain) (hperm : w.Perm v) : w.IsPlain where
  ascii b hb := h.ascii b (hperm.mem_iff.mp hb)
  upper b hb := h.upper b (hperm.mem_iff.mp hb)

theorem InCapitals.isPlain {w : Word} (h : w.InCapitals) : w.IsPlain where
  ascii b hb := forall_isUpper (p := (· < 0x80)) (by decide) (h b hb)
  upper b hb := upperByte_of_isUpper (h b hb)

/-- A byte is an ASCII character in either case or in none. -/
theorem upperByte_lt_iff (b : UInt8) : upperByte b < 0x80 ↔ b < 0x80 := by
  refine byte_forall (p := fun b => upperByte b < 0x80 ↔ b < 0x80) ?_ b
  decide +kernel

@[simp] theorem isAscii_upper (w : Word) : w.upper.isAscii = w.isAscii := by
  simp [isAscii, upper, upperByte_lt_iff, Function.comp_def]

/-- **What is spelled in an alphabet is plain**, and it has a letter. -/
theorem isPlain_of_spelledIn {letters v w : Word} (h : v.spelledIn letters = some w) :
    w.IsPlain ∧ w ≠ [] := by
  -- Words that are empty or not plain are refused first.
  have hv : v.isEmpty = false ∧ v.isAscii = true := by
    unfold spelledIn at h
    split at h
    · cases h
    · next hentry => simpa using hentry
  obtain ⟨hnonempty, hascii⟩ := hv
  obtain ⟨rfl, -⟩ := spelledIn_eq_some h
  refine ⟨⟨?_, ?_⟩, by simpa [upper] using hnonempty⟩
  · intro b hb
    obtain ⟨a, ha, rfl⟩ := List.mem_map.mp hb
    exact (upperByte_lt_iff a).mpr (by simpa using List.all_eq_true.mp hascii a ha)
  · intro b hb
    obtain ⟨a, -, rfl⟩ := List.mem_map.mp hb
    exact upperByte_upperByte a

/-- A word is spelled in an alphabet if its upper case is. -/
theorem spelledIn_upper (w letters : Word) : w.upper.spelledIn letters = w.spelledIn letters := by
  have hempty : w.upper.isEmpty = w.isEmpty := by simp [upper]
  rw [spelledIn, spelledIn, hempty, isAscii_upper, upper_upper]

/-- **What comes out of the test passes it again.** -/
theorem spelledIn_of_spelledIn {letters v w : Word} (h : v.spelledIn letters = some w) :
    w.spelledIn letters = some w := by
  obtain ⟨rfl, -⟩ := spelledIn_eq_some h
  rw [spelledIn_upper]
  exact h

end Word

end WordStudy
