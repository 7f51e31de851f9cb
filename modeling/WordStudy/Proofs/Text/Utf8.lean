import WordStudy.Text.Utf8

/-!
# Text that was written is read again

A character is written as one to four bytes, of which only a single one is ASCII. **Reading takes
just the bytes of a character**, whatever stands behind them, so that no part of a text that was
written is replaced.
-/

namespace WordStudy

/-! ## §1 Bytes of characters -/

/-- The byte of a character that has only one. -/
def byteOf (c : Char) : UInt8 := UInt8.ofNat c.toNat

theorem toNat_byteOf {c : Char} (h : c.toNat < 128) : (byteOf c).toNat = c.toNat :=
  UInt8.toNat_ofNat_of_lt' (Nat.lt_trans h (by decide))

/-- Letters `A`, as many as `n`, are as many bytes. -/
theorem utf8ByteSize_replicate (n : Nat) :
    (String.ofList (List.replicate n 'A')).utf8ByteSize = n := by
  induction n with
  | zero => rfl
  | succ n ih =>
    rw [List.replicate_succ, String.ofList_cons, String.utf8ByteSize_append, ih,
      String.utf8ByteSize_singleton, show Char.utf8Size 'A' = 1 from rfl, Nat.add_comm]

/-- **A character is one byte, or several that are no ASCII characters.** -/
theorem utf8EncodeChar_cases (c : Char) :
    c.toNat < 128 ∧ String.utf8EncodeChar c = [byteOf c] ∨
      128 ≤ c.toNat ∧ String.utf8EncodeChar c ≠ [] ∧
        ∀ b ∈ String.utf8EncodeChar c, (0x80 : UInt8) ≤ b := by
  have hhigh (n : Nat) (h : 128 ≤ n) (h' : n < 256) : (0x80 : UInt8) ≤ UInt8.ofNat n := by
    rw [UInt8.le_iff_toNat_le, UInt8.toNat_ofNat_of_lt' h']
    exact h
  by_cases hshort : c.toNat < 128
  · exact .inl ⟨hshort, if_pos (Nat.le_of_lt_succ hshort)⟩
  · refine .inr ⟨Nat.le_of_not_lt hshort, ?_⟩
    have hlong : ¬c.val.toNat ≤ 127 := fun h => hshort (Nat.lt_succ_of_le h)
    unfold String.utf8EncodeChar
    simp only [hlong, if_false]
    -- Two, three or four bytes: the leading ones carry their length, the others 0x80.
    split
    · exact ⟨List.cons_ne_nil _ _, by simp (disch := omega) only [List.forall_mem_cons, hhigh,
        List.not_mem_nil, false_imp_iff, implies_true, and_self]⟩
    split
    · exact ⟨List.cons_ne_nil _ _, by simp (disch := omega) only [List.forall_mem_cons, hhigh,
        List.not_mem_nil, false_imp_iff, implies_true, and_self]⟩
    · exact ⟨List.cons_ne_nil _ _, by simp (disch := omega) only [List.forall_mem_cons, hhigh,
        List.not_mem_nil, false_imp_iff, implies_true, and_self]⟩

namespace Text.Utf8

theorem encode_cons_of_lt {c : Char} (h : c.toNat < 128) (cs : List Char) :
    encode (c :: cs) = byteOf c :: encode cs := by
  rcases utf8EncodeChar_cases c with ⟨-, hbyte⟩ | ⟨hlong, -⟩
  · rw [encode_cons, hbyte]
    rfl
  · omega

/-- **A sign of one byte** is met only where it was written. -/
theorem notMem_encode {sign : Char} (hsign : sign.toNat < 128) {cs : List Char} (h : sign ∉ cs) :
    byteOf sign ∉ encode cs := by
  intro hmem
  obtain ⟨c, hc, hb⟩ := List.mem_flatMap.mp hmem
  rcases utf8EncodeChar_cases c with ⟨hshort, hbyte⟩ | ⟨-, -, hhigh⟩
  · rw [hbyte, List.mem_singleton] at hb
    have hnat := congrArg UInt8.toNat hb
    rw [toNat_byteOf hsign, toNat_byteOf hshort] at hnat
    exact h (Char.toNat_inj.mp hnat ▸ hc)
  · -- No byte of a longer character is that of a sign.
    have hlow := UInt8.le_iff_toNat_le.mp (hhigh _ hb)
    rw [toNat_byteOf hsign] at hlow
    exact Nat.not_le.mpr hsign hlow

/-! ## §2 Bytes of numbers -/

variable {n : Nat} (hn : n < 256)

include hn

theorem within_ofNat (low high : UInt8) :
    within low high (UInt8.ofNat n) = decide (low.toNat ≤ n ∧ n ≤ high.toNat) := by
  simp only [within, UInt8.le_iff_toNat_le, UInt8.toNat_ofNat_of_lt' hn, Bool.decide_and]

theorem ofNat_eq_iff (b : UInt8) : UInt8.ofNat n = b ↔ n = b.toNat := by
  rw [← UInt8.toNat_inj, UInt8.toNat_ofNat_of_lt' hn]

theorem ofNat_lt_iff (b : UInt8) : UInt8.ofNat n < b ↔ n < b.toNat := by
  rw [UInt8.lt_iff_toNat_lt, UInt8.toNat_ofNat_of_lt' hn]

/-- What is read at a byte, by its number. -/
theorem characterAt_ofNat (rest : List UInt8) :
    characterAt (UInt8.ofNat n) rest =
      if n < 0x80 then (Char.ofNat n, 0)
      else if 0xC2 ≤ n ∧ n ≤ 0xDF then twoBytes (UInt8.ofNat n) rest
      else if n = 0xE0 then threeBytes (UInt8.ofNat n) 0xA0 0xBF rest
      else if n = 0xED then threeBytes (UInt8.ofNat n) 0x80 0x9F rest
      else if 0xE1 ≤ n ∧ n ≤ 0xEF then threeBytes (UInt8.ofNat n) 0x80 0xBF rest
      else if n = 0xF0 then fourBytes (UInt8.ofNat n) 0x90 0xBF rest
      else if 0xF1 ≤ n ∧ n ≤ 0xF3 then fourBytes (UInt8.ofNat n) 0x80 0xBF rest
      else if n = 0xF4 then fourBytes (UInt8.ofNat n) 0x80 0x8F rest
      else (replacement, 0) := by
  simp only [characterAt, within_ofNat hn, ofNat_eq_iff hn, ofNat_lt_iff hn, decide_eq_true_eq,
    UInt8.toNat_ofNat_of_lt' hn, UInt8.reduceToNat]

omit hn

/-- A byte that continues a character holds six of its bits. -/
theorem isTail_and_payload (n : Nat) :
    isTail (UInt8.ofNat (n % 0x40 + 0x80)) = true ∧
      payload (UInt8.ofNat (n % 0x40 + 0x80)) = n % 0x40 := by
  have hbyte : n % 0x40 + 0x80 < 256 := by omega
  constructor
  · rw [isTail, within_ofNat hbyte, decide_eq_true_eq]
    simp only [UInt8.reduceToNat]
    omega
  · rw [payload, UInt8.toNat_ofNat_of_lt' hbyte]
    omega

/-! ## §3 One character -/

theorem characterAt_two (hlow : 0x80 ≤ n) (hhigh : n < 0x800) (rest : List UInt8) :
    characterAt (UInt8.ofNat (n / 0x40 % 0x20 + 0xC0)) (UInt8.ofNat (n % 0x40 + 0x80) :: rest) =
      (Char.ofNat n, 1) := by
  have hbyte : n / 0x40 % 0x20 + 0xC0 < 256 := by omega
  obtain ⟨htail, hpayload⟩ := isTail_and_payload n
  have hnumber : (n / 0x40 % 0x20 + 0xC0) % 0x20 * 0x40 + n % 0x40 = n := by omega
  rw [characterAt_ofNat hbyte, if_neg (by omega), if_pos (by omega)]
  simp only [twoBytes, htail, if_true, hpayload, UInt8.toNat_ofNat_of_lt' hbyte, hnumber]

/-- The second byte of three is read if it is within the bounds. -/
theorem threeBytes_written (hlow : 0x800 ≤ n) (hhigh : n < 0x10000) {low high : UInt8}
    (hsecond : low.toNat ≤ n / 0x40 % 0x40 + 0x80 ∧ n / 0x40 % 0x40 + 0x80 ≤ high.toNat)
    (rest : List UInt8) :
    threeBytes (UInt8.ofNat (n / 0x1000 % 0x10 + 0xE0)) low high
        (UInt8.ofNat (n / 0x40 % 0x40 + 0x80) :: UInt8.ofNat (n % 0x40 + 0x80) :: rest) =
      (Char.ofNat n, 2) := by
  obtain ⟨-, hpayload⟩ := isTail_and_payload (n / 0x40)
  obtain ⟨htail, hpayload'⟩ := isTail_and_payload n
  have hwithin : within low high (UInt8.ofNat (n / 0x40 % 0x40 + 0x80)) = true := by
    rw [within_ofNat (by omega), decide_eq_true_eq]
    exact hsecond
  have hnumber : ((n / 0x1000 % 0x10 + 0xE0) % 0x10 * 0x40 + n / 0x40 % 0x40) * 0x40 + n % 0x40 =
      n := by omega
  have hbyte : n / 0x1000 % 0x10 + 0xE0 < 256 := by omega
  simp only [threeBytes, hwithin, htail, Bool.not_true, Bool.false_eq_true, if_false, hpayload,
    hpayload', UInt8.toNat_ofNat_of_lt' hbyte, hnumber]

theorem characterAt_three (hlow : 0x800 ≤ n) (hhigh : n < 0x10000)
    (hvalid : n < 0xD800 ∨ 0xDFFF < n) (rest : List UInt8) :
    characterAt (UInt8.ofNat (n / 0x1000 % 0x10 + 0xE0))
        (UInt8.ofNat (n / 0x40 % 0x40 + 0x80) :: UInt8.ofNat (n % 0x40 + 0x80) :: rest) =
      (Char.ofNat n, 2) := by
  rw [characterAt_ofNat (by omega), if_neg (by omega), if_neg (by omega)]
  -- Short forms and surrogates are kept out by the second byte.
  split
  · exact threeBytes_written hlow hhigh (by simp only [UInt8.reduceToNat]; omega) rest
  split
  · exact threeBytes_written hlow hhigh (by simp only [UInt8.reduceToNat]; omega) rest
  · rw [if_pos (by omega)]
    exact threeBytes_written hlow hhigh (by simp only [UInt8.reduceToNat]; omega) rest

/-- The second byte of four is read if it is within the bounds. -/
theorem fourBytes_written (hlow : 0x10000 ≤ n) (hhigh : n < 0x110000) {low high : UInt8}
    (hsecond : low.toNat ≤ n / 0x1000 % 0x40 + 0x80 ∧ n / 0x1000 % 0x40 + 0x80 ≤ high.toNat)
    (rest : List UInt8) :
    fourBytes (UInt8.ofNat (n / 0x40000 % 0x08 + 0xF0)) low high
        (UInt8.ofNat (n / 0x1000 % 0x40 + 0x80) :: UInt8.ofNat (n / 0x40 % 0x40 + 0x80) ::
          UInt8.ofNat (n % 0x40 + 0x80) :: rest) = (Char.ofNat n, 3) := by
  obtain ⟨-, hpayload⟩ := isTail_and_payload (n / 0x1000)
  obtain ⟨htail, hpayload'⟩ := isTail_and_payload (n / 0x40)
  obtain ⟨htail', hpayload''⟩ := isTail_and_payload n
  have hwithin : within low high (UInt8.ofNat (n / 0x1000 % 0x40 + 0x80)) = true := by
    rw [within_ofNat (by omega), decide_eq_true_eq]
    exact hsecond
  have hnumber : (((n / 0x40000 % 0x08 + 0xF0) % 0x08 * 0x40 + n / 0x1000 % 0x40) * 0x40 +
      n / 0x40 % 0x40) * 0x40 + n % 0x40 = n := by omega
  have hbyte : n / 0x40000 % 0x08 + 0xF0 < 256 := by omega
  simp only [fourBytes, hwithin, htail, htail', Bool.not_true, Bool.false_eq_true, if_false,
    hpayload, hpayload', hpayload'', UInt8.toNat_ofNat_of_lt' hbyte, hnumber]

theorem characterAt_four (hlow : 0x10000 ≤ n) (hhigh : n < 0x110000) (rest : List UInt8) :
    characterAt (UInt8.ofNat (n / 0x40000 % 0x08 + 0xF0))
        (UInt8.ofNat (n / 0x1000 % 0x40 + 0x80) :: UInt8.ofNat (n / 0x40 % 0x40 + 0x80) ::
          UInt8.ofNat (n % 0x40 + 0x80) :: rest) = (Char.ofNat n, 3) := by
  rw [characterAt_ofNat (by omega), if_neg (by omega), if_neg (by omega), if_neg (by omega),
    if_neg (by omega), if_neg (by omega)]
  split
  · exact fourBytes_written hlow hhigh (by simp only [UInt8.reduceToNat]; omega) rest
  split
  · exact fourBytes_written hlow hhigh (by simp only [UInt8.reduceToNat]; omega) rest
  · rw [if_pos (by omega)]
    exact fourBytes_written hlow hhigh (by simp only [UInt8.reduceToNat]; omega) rest

/-- **A character that is written is read**, with all of its bytes and no others. -/
theorem exists_characterAt (c : Char) (rest : List UInt8) :
    ∃ a tail, String.utf8EncodeChar c = a :: tail ∧
      characterAt a (tail ++ rest) = (c, tail.length) := by
  -- Surrogates are left out by the type, as the bytes of three would not read back.
  have hvalid : c.toNat < 0xD800 ∨ 0xDFFF < c.toNat ∧ c.toNat < 0x110000 := c.valid
  have hchar : Char.ofNat c.toNat = c := Char.ofNat_toNat c
  unfold String.utf8EncodeChar
  dsimp only
  rw [show c.val.toNat = c.toNat from rfl]
  split
  · next hone =>
    refine ⟨_, _, rfl, ?_⟩
    rw [characterAt_ofNat (by omega), if_pos (by omega), hchar]
    rfl
  split
  · refine ⟨_, _, rfl, (characterAt_two (by omega) (by omega) rest).trans ?_⟩
    rw [hchar]
    rfl
  split
  · refine ⟨_, _, rfl, (characterAt_three (by omega) (by omega) (by omega) rest).trans ?_⟩
    rw [hchar]
    rfl
  · refine ⟨_, _, rfl, (characterAt_four (by omega) (by omega) rest).trans ?_⟩
    rw [hchar]
    rfl

/-! ## §4 Texts -/

/-- Bytes that were read already are passed over. -/
theorem charactersFrom_append (front rest : List UInt8) :
    charactersFrom front.length (front ++ rest) = charactersFrom 0 rest := by
  induction front with
  | nil => rfl
  | cons b front ih => exact ih

/-- **A text in front of bytes is read** before them. -/
theorem characters_encode_append (text : List Char) (rest : List UInt8) :
    characters (encode text ++ rest) = text ++ characters rest := by
  unfold characters
  induction text with
  | nil => rfl
  | cons c text ih =>
    obtain ⟨a, tail, hbytes, hread⟩ := exists_characterAt c (encode text ++ rest)
    rw [encode_cons, hbytes, List.append_assoc, List.cons_append]
    simp only [charactersFrom, hread, charactersFrom_append, ih, List.cons_append]

/-- **What was written is read.** -/
@[simp] theorem characters_encode (text : List Char) : characters (encode text) = text := by
  have hread := characters_encode_append text []
  rwa [List.append_nil, show characters [] = [] from rfl, List.append_nil] at hread

end Text.Utf8

end WordStudy
