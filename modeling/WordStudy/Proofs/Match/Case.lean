import WordStudy.Match.Pattern
import WordStudy.Match.Rack

/-!
# Texts in upper case

A search puts the texts of its conditions in upper case first. Signs have no case and letters are
read in either, so that **patterns and racks mean the same** in upper case, and so do the bytes of a
text for a vocabulary that looks words up in upper case.
-/

namespace WordStudy

/-! ## §1 Characters -/

/-- The letters that have an upper case of their own. -/
def lowerLetters : List Char := (List.range 26).map fun i => Char.ofNat (0x61 + i)

theorem mem_lowerLetters {c : Char} (hlow : 0x61 ≤ c.toNat) (hhigh : c.toNat ≤ 0x7A) :
    c ∈ lowerLetters := by
  refine List.mem_map.mpr ⟨c.toNat - 0x61, List.mem_range.mpr (by omega), ?_⟩
  rw [Nat.add_sub_cancel' hlow, Char.ofNat_toNat]

/-- A character is its own upper case unless it is one of the 26 letters. -/
theorem toUpper_eq_or_mem (c : Char) : c.toUpper = c ∨ c ∈ lowerLetters := by
  by_cases h : 'a'.val ≤ c.val ∧ c.val ≤ 'z'.val
  · obtain ⟨hlow, hhigh⟩ := h
    exact .inr (mem_lowerLetters (UInt32.le_iff_toNat_le.mp hlow) (UInt32.le_iff_toNat_le.mp hhigh))
  · left
    exact dif_neg h

/-- What holds of the 26 letters and of every character that is its own upper case holds of all
characters. -/
theorem toUpper_cases {p : Char → Char → Prop} (hself : ∀ c, p c c)
    (hlower : ∀ c ∈ lowerLetters, p c.toUpper c) (c : Char) : p c.toUpper c := by
  rcases toUpper_eq_or_mem c with hc | hc
  · rw [hc]
    exact hself c
  · exact hlower c hc

theorem toUpper_toUpper (c : Char) : c.toUpper.toUpper = c.toUpper := by
  have hlower : ∀ c ∈ lowerLetters, c.toUpper.toUpper = c.toUpper :=
    forall_mem_of_all (by decide)
  rcases toUpper_eq_or_mem c with hc | hc
  · rw [hc, hc]
  · exact hlower c hc

/-- What is in upper case stays as it is. -/
theorem toUpper_toUpper_text (text : String) : text.toUpper.toUpper = text.toUpper := by
  simp only [String.toUpper, ← String.toList_inj, String.toList_map, List.map_map]
  exact List.map_congr_left fun c _ => toUpper_toUpper c

@[simp] theorem isAlpha_toUpper (c : Char) : c.toUpper.isAlpha = c.isAlpha :=
  toUpper_cases (p := fun d c => d.isAlpha = c.isAlpha) (fun _ => rfl)
    (forall_mem_of_all (by decide)) c

/-- A sign that is no letter has no case. -/
theorem toUpper_eq_iff {sign : Char} (hsign : sign.isAlpha = false) (c : Char) :
    c.toUpper = sign ↔ c = sign := by
  have hletters : ∀ c ∈ lowerLetters, c.toUpper.isAlpha = true ∧ c.isAlpha = true :=
    forall_mem_of_all (by decide)
  rcases toUpper_eq_or_mem c with hc | hc
  · rw [hc]
  · obtain ⟨hupper, hlower⟩ := hletters c hc
    constructor
    · rintro rfl
      cases hsign.symm.trans hupper
    · rintro rfl
      cases hsign.symm.trans hlower

namespace Token

/-! ## §2 Tokens -/

theorem letterOf_toUpper (c : Char) : letterOf c.toUpper = letterOf c :=
  toUpper_cases (p := fun d c => letterOf d = letterOf c) (fun _ => rfl)
    (forall_mem_of_all (by decide)) c

theorem ofSign_toUpper (c : Char) : ofSign c.toUpper = ofSign c :=
  toUpper_cases (p := fun d c => ofSign d = ofSign c) (fun _ => rfl)
    (forall_mem_of_all (by decide)) c

theorem classOf_map_toUpper (body : List Char) : classOf (body.map Char.toUpper) = classOf body := by
  have hempty (letters : List Char) : (letters.map Char.toUpper).isEmpty = letters.isEmpty := by
    cases letters <;> rfl
  have hall (letters : List Char) :
      (letters.map Char.toUpper).all Char.isAlpha = letters.all Char.isAlpha := by
    simp [List.all_map, Function.comp_def]
  have hletters (letters : List Char) :
      (letters.map Char.toUpper).map letterOf = letters.map letterOf := by
    simp [Function.comp_def, letterOf_toUpper]
  cases body with
  | nil => rfl
  | cons c letters =>
    -- A `^` in front negates the class and stays what it is.
    by_cases hc : c = '^'
    · subst hc
      simp only [List.map_cons, show ('^' : Char).toUpper = '^' from by decide, classOf, hempty,
        hall, hletters]
    · have hc' : c.toUpper ≠ '^' := fun h => hc ((toUpper_eq_iff rfl c).mp h)
      simp [classOf, hc, hc', letterOf_toUpper, Function.comp_def]

theorem scan_map_toUpper (body : Option (List Char)) (cs : List Char) :
    scan (body.map (List.map Char.toUpper)) (cs.map Char.toUpper) = scan body cs := by
  -- The body of a class that is open is in upper case, too, as far as it was read.
  induction cs generalizing body with
  | nil => cases body <;> rfl
  | cons c cs ih =>
    have houtside : scan none (cs.map Char.toUpper) = scan none cs := ih none
    cases body with
    | none =>
      have hopen := toUpper_eq_iff (rfl : '['.isAlpha = false) c
      have hinside : scan (some []) (cs.map Char.toUpper) = scan (some []) cs := ih (some [])
      simp only [Option.map_none, List.map_cons, scan, hopen, hinside, ofSign_toUpper, houtside]
    | some body =>
      have hclose := toUpper_eq_iff (rfl : ']'.isAlpha = false) c
      have hinside : scan (some (c.toUpper :: body.map Char.toUpper)) (cs.map Char.toUpper) =
          scan (some (c :: body)) cs := ih (some (c :: body))
      simp only [Option.map_some, List.map_cons, scan, hclose, hinside, houtside,
        ← List.map_reverse, classOf_map_toUpper]

/-- **A text and its upper case are read alike.** -/
theorem read_toUpper (text : String) : read text.toUpper = read text := by
  have hscan := scan_map_toUpper none text.toList
  simpa [read, String.toUpper, String.toList_map] using hscan

end Token

@[simp] theorem Pattern.read_toUpper (text : String) : read text.toUpper = read text := by
  simp [read, Token.read_toUpper]

@[simp] theorem Rack.read_toUpper (text : String) : read text.toUpper = read text := by
  simp [read, Token.read_toUpper]

/-! ## §3 Bytes -/

/-- The bytes of a character are those of its upper case, in upper case. -/
theorem upper_utf8EncodeChar_toUpper (c : Char) :
    Word.upper (String.utf8EncodeChar c.toUpper) = Word.upper (String.utf8EncodeChar c) :=
  toUpper_cases
    (p := fun d c => Word.upper (String.utf8EncodeChar d) = Word.upper (String.utf8EncodeChar c))
    (fun _ => rfl)
    (forall_mem_of_all (by decide)) c

/-- **A text and its upper case spell one word**, in upper case. -/
theorem Word.upper_ofText_toUpper (text : String) :
    Word.upper (Word.ofText text.toUpper) = Word.upper (Word.ofText text) := by
  have hencode (cs : List Char) :
      Word.upper ((cs.map Char.toUpper).flatMap String.utf8EncodeChar) =
        Word.upper (cs.flatMap String.utf8EncodeChar) := by
    induction cs with
    | nil => rfl
    | cons c cs ih =>
      simp only [List.map_cons, List.flatMap_cons, Word.upper_append, ih,
        upper_utf8EncodeChar_toUpper]
  simpa [Word.ofText, Text.Utf8.bytesOf, Text.Utf8.encode, String.toUpper, String.toList_map]
    using hencode text.toList

/-- A byte that stands for no small letter is its own upper case. -/
theorem upperByte_ofNat {n : Nat} (hn : n < 256) (h : n < 0x61 ∨ 0x7A < n) :
    upperByte (UInt8.ofNat n) = UInt8.ofNat n := by
  have hlow : (0x61 : UInt8) ≤ UInt8.ofNat n ↔ 0x61 ≤ n := by
    rw [UInt8.le_iff_toNat_le, UInt8.toNat_ofNat_of_lt' hn]
    rfl
  have hhigh : UInt8.ofNat n ≤ (0x7A : UInt8) ↔ n ≤ 0x7A := by
    rw [UInt8.le_iff_toNat_le, UInt8.toNat_ofNat_of_lt' hn]
    rfl
  refine if_neg ?_
  simp only [isLower, Bool.and_eq_true, decide_eq_true_eq, hlow, hhigh]
  omega

/-- **A character that is its own upper case** is so in all its bytes: those of a longer one are no
letters. -/
theorem upper_utf8EncodeChar {c : Char} (hc : c.toUpper = c) :
    Word.upper (String.utf8EncodeChar c) = String.utf8EncodeChar c := by
  have hlong (n : Nat) (h : 128 ≤ n) (h' : n < 256) :
      upperByte (UInt8.ofNat n) = UInt8.ofNat n := upperByte_ofNat h' (by omega)
  unfold String.utf8EncodeChar
  dsimp only
  split
  · next hshort =>
    have hshort : c.toNat ≤ 0x7F := hshort
    -- A character that is its own capital is no small letter, so its byte stays.
    have hletter : ¬(0x61 ≤ c.toNat ∧ c.toNat ≤ 0x7A) := by
      rintro ⟨hlow, hhigh⟩
      have hne : ∀ c ∈ lowerLetters, c.toUpper ≠ c := forall_mem_of_all (by decide)
      exact hne c (mem_lowerLetters hlow hhigh) hc
    have hbyte := upperByte_ofNat (n := c.toNat) (by omega) (by omega)
    exact congrArg (fun b => [b]) hbyte
  split
  -- The bytes of a longer character are all above the letters.
  · simp (disch := omega) only [Word.upper, List.map_cons, List.map_nil, hlong]
  split
  · simp (disch := omega) only [Word.upper, List.map_cons, List.map_nil, hlong]
  · simp (disch := omega) only [Word.upper, List.map_cons, List.map_nil, hlong]

/-- **The bytes of a text in upper case** are its bytes in upper case. -/
theorem Word.ofText_toUpper (text : String) :
    Word.ofText text.toUpper = Word.upper (Word.ofText text) := by
  rw [← upper_ofText_toUpper]
  have hencode (cs : List Char) (h : ∀ c ∈ cs, c.toUpper = c) :
      Word.upper (cs.flatMap String.utf8EncodeChar) = cs.flatMap String.utf8EncodeChar := by
    induction cs with
    | nil => rfl
    | cons c cs ih =>
      rw [List.flatMap_cons, Word.upper_append, upper_utf8EncodeChar (h c (by simp)),
        ih fun d hd => h d (by simp [hd])]
  refine (hencode _ fun c hc => ?_).symm
  have hc : c ∈ text.toList.map Char.toUpper := by simpa [String.toUpper, String.toList_map] using hc
  obtain ⟨d, -, rfl⟩ := List.mem_map.mp hc
  exact toUpper_toUpper d

end WordStudy
