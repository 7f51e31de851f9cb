import WordStudy.Proofs.Graph.Vocabulary

/-!
# What the checksum tells apart

The register takes a byte string bit by bit, and what a bit does to it is linear: the registers of two
byte strings of one length differ by **the register of their differences**. So the checksums differ as
soon as the differences alone, fed into a register of zeros, leave something in it. They do if they lie
within 16 bits in a row, for feeding zeros never clears a register, and if they are odd in number, for
the polynomial has an even number of terms.
-/

namespace WordStudy

namespace Checksum

/-! ## §1 The register, bit by bit -/

/-- The bits of a byte, the low one first. -/
def bitsOfByte (b : UInt8) : List Bool := (List.range 8).map b.toBitVec.getLsbD

/-- The bits of a byte string in the order in which they are fed. -/
def bits (bytes : List UInt8) : List Bool := bytes.flatMap bitsOfByte

/-- A bit as a register. -/
def lowBit (bit : Bool) : BitVec 16 := (BitVec.ofBool bit).setWidth 16

/-- The register after one more bit. -/
def feedBit (register : BitVec 16) (bit : Bool) : BitVec 16 := shift (register ^^^ lowBit bit)

/-- Up to 16 bits as a register, the first one lowest. -/
def packed (bits : List Bool) : BitVec 16 := (BitVec.ofBoolListLE bits).setWidth 16

theorem length_bits (bytes : List UInt8) : (bits bytes).length = 8 * bytes.length := by
  induction bytes with
  | nil => rfl
  | cons b bytes ih =>
    have hrest : (bits (b :: bytes)).length = 8 + (bits bytes).length := by
      simp [bits, bitsOfByte]
    rw [hrest, ih, List.length_cons]
    omega

theorem getLsbD_packed {bits : List Bool} {i : Nat} (hi : i < 16) :
    (packed bits).getLsbD i = bits[i]?.getD false := by
  rw [packed, BitVec.getLsbD_setWidth, BitVec.getLsbD_ofBoolListLE, decide_eq_true hi,
    Bool.true_and, List.getD_eq_getElem?_getD]

theorem getLsbD_lowBit (bit : Bool) (i : Nat) : (lowBit bit).getLsbD i = (decide (i = 0) && bit) := by
  rw [lowBit, BitVec.getLsbD_setWidth, BitVec.getLsbD_ofBool]
  cases i <;> simp

theorem packed_cons (bit : Bool) (bits : List Bool) :
    packed (bit :: bits) = lowBit bit ^^^ (packed bits <<< 1) := by
  refine BitVec.eq_of_getLsbD_eq fun i hi => ?_
  rw [getLsbD_packed hi, BitVec.getLsbD_xor, getLsbD_lowBit, BitVec.getLsbD_shiftLeft]
  cases i with
  | zero => simp
  | succ i =>
    rw [Nat.add_sub_cancel, getLsbD_packed (by omega)]
    simp [hi]

/-- **Shifting is linear.** -/
theorem shift_xor (r s : BitVec 16) : shift (r ^^^ s) = shift r ^^^ shift s := by
  unfold shift
  rw [BitVec.getLsbD_xor, BitVec.ushiftRight_xor_distrib]
  -- A step subtracts the polynomial just if the lowest bit is set.
  cases r.getLsbD 0 <;> cases s.getLsbD 0
  · simp
  · simp [BitVec.xor_assoc]
  · simp only [Bool.true_xor, Bool.not_false, if_true, Bool.false_eq_true, if_false]
    ac_rfl
  · -- The polynomial is subtracted twice.
    have htwice : (r >>> 1 ^^^ polynomial) ^^^ (s >>> 1 ^^^ polynomial) =
        (r >>> 1 ^^^ s >>> 1) ^^^ (polynomial ^^^ polynomial) := by ac_rfl
    simp only [Bool.true_xor, Bool.not_true, Bool.false_eq_true, if_false, if_true, htwice,
      BitVec.xor_self, BitVec.xor_zero]

/-- What has moved up one place moves down again. -/
theorem shift_shiftLeft {r : BitVec 16} (h : r.getLsbD 15 = false) : shift (r <<< 1) = r := by
  have hlow : (r <<< 1).getLsbD 0 = false := by simp
  rw [shift, hlow, if_neg Bool.false_ne_true]
  refine BitVec.eq_of_getLsbD_eq fun i hi => ?_
  rw [BitVec.getLsbD_ushiftRight, BitVec.getLsbD_shiftLeft]
  by_cases htop : i = 15
  · rw [htop, h]
    simp
  · have hin : 1 + i < 16 := by omega
    simp [hin]

/-- **Bits fed one by one** are bits put into the register at once and shifted. -/
theorem foldl_feedBit {bits : List Bool} (h : bits.length ≤ 16) (register : BitVec 16) :
    bits.foldl feedBit register = shifts bits.length (register ^^^ packed bits) := by
  induction bits generalizing register with
  | nil =>
    have hnone : packed [] = 0#16 := rfl
    rw [hnone, BitVec.xor_zero]
    rfl
  | cons bit bits ih =>
    rw [List.length_cons] at h
    -- No bit is as high as to be lost when those behind the first one move up.
    have htop : (packed bits).getLsbD 15 = false := by
      rw [getLsbD_packed (by decide), List.getElem?_eq_none (by omega), Option.getD_none]
    calc (bit :: bits).foldl feedBit register
        = shifts bits.length (feedBit register bit ^^^ packed bits) := ih (by omega) _
      _ = shifts bits.length (shift (register ^^^ lowBit bit ^^^ packed bits <<< 1)) := by
          rw [shift_xor, shift_shiftLeft htop]
          rfl
      _ = shifts (bits.length + 1) (register ^^^ packed (bit :: bits)) := by
          rw [packed_cons, BitVec.xor_assoc]
          rfl

theorem packed_bitsOfByte (b : UInt8) : packed (bitsOfByte b) = b.toBitVec.setWidth 16 := by
  refine byte_forall (p := fun b => packed (bitsOfByte b) = b.toBitVec.setWidth 16) ?_ b
  decide +kernel

theorem feed_eq_foldl (register : BitVec 16) (b : UInt8) :
    feed register b = (bitsOfByte b).foldl feedBit register := by
  have hlength : (bitsOfByte b).length = 8 := by simp [bitsOfByte]
  rw [foldl_feedBit (by omega), hlength, packed_bitsOfByte]
  rfl

/-- **Bytes are fed as their bits.** -/
theorem foldl_feed (bytes : List UInt8) (register : BitVec 16) :
    bytes.foldl feed register = (bits bytes).foldl feedBit register := by
  rw [bits, List.foldl_flatMap]
  exact congrArg (bytes.foldl · register) (funext fun r => funext fun b => feed_eq_foldl r b)

/-! ## §2 Differences -/

/-- Where two byte strings differ, bit by bit. -/
def differences (a b : List UInt8) : List Bool := List.zipWith (· ^^ ·) (bits a) (bits b)

/-- The register that differences leave. -/
def syndrome (differences : List Bool) : BitVec 16 := differences.foldl feedBit 0#16

theorem feedBit_xor (r s : BitVec 16) (x y : Bool) :
    feedBit (r ^^^ s) (x ^^ y) = feedBit r x ^^^ feedBit s y := by
  have hbit : lowBit (x ^^ y) = lowBit x ^^^ lowBit y := by cases x <;> cases y <;> rfl
  have hsum : r ^^^ s ^^^ (lowBit x ^^^ lowBit y) = (r ^^^ lowBit x) ^^^ (s ^^^ lowBit y) := by
    ac_rfl
  rw [feedBit, hbit, hsum, shift_xor]
  rfl

/-- **The registers of two bit strings differ by that of their differences.** -/
theorem foldl_feedBit_xor {k l : List Bool} (h : k.length = l.length) (r s : BitVec 16) :
    (List.zipWith (· ^^ ·) k l).foldl feedBit (r ^^^ s) = k.foldl feedBit r ^^^ l.foldl feedBit s := by
  induction k generalizing l r s with
  | nil =>
    cases l with
    | nil => rfl
    | cons y l => cases h
  | cons x k ih =>
    cases l with
    | nil => cases h
    | cons y l =>
      rw [List.zipWith_cons_cons, List.foldl_cons, feedBit_xor]
      exact ih (by simpa using h) _ _

/-- **Checksums are equal** just if the differences leave nothing in the register. -/
theorem checksum_eq_iff {a b : List UInt8} (h : a.length = b.length) :
    checksum a = checksum b ↔ syndrome (differences a b) = 0#16 := by
  have hbits : (bits a).length = (bits b).length := by rw [length_bits, length_bits, h]
  have hsum := foldl_feedBit_xor hbits (BitVec.allOnes 16) (BitVec.allOnes 16)
  rw [BitVec.xor_self] at hsum
  rw [syndrome, differences, hsum, BitVec.xor_eq_zero_iff, ← foldl_feed, ← foldl_feed, checksum,
    checksum, BitVec.not_inj]

/-- Bits without a difference are the same. -/
theorem eq_of_clear {k l : List Bool} (h : k.length = l.length)
    (hclear : true ∉ List.zipWith (· ^^ ·) k l) : k = l := by
  induction k generalizing l with
  | nil => exact (List.eq_nil_of_length_eq_zero h.symm).symm
  | cons x k ih =>
    cases l with
    | nil => cases h
    | cons y l =>
      rw [List.zipWith_cons_cons, List.mem_cons, not_or] at hclear
      have hbit : x = y := by
        cases x <;> cases y <;> simp_all
      rw [hbit, ih (by simpa using h) hclear.2]

theorem bitsOfByte_injective : Function.Injective bitsOfByte := by
  intro b c h
  -- A register of 16 bits has room for the byte.
  have hregister : b.toBitVec.setWidth 16 = c.toBitVec.setWidth 16 := by
    rw [← packed_bitsOfByte, ← packed_bitsOfByte, h]
  refine UInt8.toBitVec_inj.mp (BitVec.eq_of_getLsbD_eq fun i hi => ?_)
  have hbit := congrArg (BitVec.getLsbD · i) hregister
  simpa [show i < 16 by omega] using hbit

/-- **The bits tell the bytes.** -/
theorem bits_injective : Function.Injective bits := by
  intro a b h
  induction a generalizing b with
  | nil =>
    -- Each byte gives eight bits, so the lengths agree and the bytes come one by one.
    have hlength := congrArg List.length h
    rw [length_bits, length_bits, List.length_nil] at hlength
    exact (List.eq_nil_of_length_eq_zero (by omega)).symm
  | cons x a ih =>
    cases b with
    | nil =>
      have hlength := congrArg List.length h
      rw [length_bits, length_bits, List.length_nil, List.length_cons] at hlength
      omega
    | cons y b =>
      obtain ⟨hbyte, hrest⟩ := List.append_inj h (by simp [bitsOfByte])
      rw [bitsOfByte_injective hbyte, ih hrest]

/-- Different byte strings of one length differ in a bit. -/
theorem mem_differences {a b : List UInt8} (h : a.length = b.length) (hne : a ≠ b) :
    true ∈ differences a b := by
  by_contra hclear
  exact hne (bits_injective (eq_of_clear (by rw [length_bits, length_bits, h]) hclear))

/-! ## §3 Differences in a row -/

/-- **A burst**: all differences lie within 16 bits in a row. -/
def IsBurst (differences : List Bool) : Prop :=
  ∃ start, ∀ i (hi : i < differences.length),
    differences[i] = true → start ≤ i ∧ i < start + 16

/-- A register that a shift clears was clear. -/
theorem shift_eq_zero {r : BitVec 16} (h : shift r = 0#16) : r = 0#16 := by
  have hbit (i : Nat) : (shift r).getLsbD i = false := by rw [h, BitVec.getLsbD_zero]
  have hlow : r.getLsbD 0 = false := by
    by_contra hset
    -- The polynomial sets the top bit, which a shift leaves clear otherwise.
    have htop := hbit 15
    rw [shift, if_pos (by simpa using hset), BitVec.getLsbD_xor, BitVec.getLsbD_ushiftRight,
      BitVec.getLsbD_of_ge r (1 + 15) (by omega)] at htop
    exact absurd htop (by decide)
  refine BitVec.eq_of_getLsbD_eq fun i _ => ?_
  rw [BitVec.getLsbD_zero]
  cases i with
  | zero => exact hlow
  | succ i =>
    have hnext := hbit i
    rwa [shift, hlow, if_neg Bool.false_ne_true, BitVec.getLsbD_ushiftRight, Nat.add_comm] at hnext

theorem shifts_eq_zero {n : Nat} {r : BitVec 16} (h : shifts n r = 0#16) : r = 0#16 := by
  induction n generalizing r with
  | zero => exact h
  | succ n ih => exact shift_eq_zero (ih h)

/-- Bits that are clear only shift the register. -/
theorem foldl_feedBit_of_clear {bits : List Bool} (h : true ∉ bits) (register : BitVec 16) :
    bits.foldl feedBit register = shifts bits.length register := by
  induction bits generalizing register with
  | nil => rfl
  | cons bit bits ih =>
    obtain ⟨hbit, hrest⟩ := not_or.mp fun h' => h (List.mem_cons.mpr h')
    have hfeed : feedBit register bit = shift register := by
      rw [feedBit, Bool.eq_false_iff.mpr (Ne.symm hbit)]
      exact congrArg shift (BitVec.xor_zero)
    rw [List.foldl_cons, ih hrest, hfeed]
    rfl

theorem shifts_zero (n : Nat) : shifts n 0#16 = 0#16 := by
  induction n with
  | zero => rfl
  | succ n ih => exact ih

/-- Up to 16 bits of which one is set leave something in a clear register. -/
theorem syndrome_ne_zero_of_short {bits : List Bool} (hlength : bits.length ≤ 16)
    (hset : true ∈ bits) : syndrome bits ≠ 0#16 := by
  intro h
  rw [syndrome, foldl_feedBit hlength, BitVec.zero_xor] at h
  obtain ⟨i, hi, htrue⟩ := List.getElem_of_mem hset
  have hclear := congrArg (BitVec.getLsbD · i) (shifts_eq_zero h)
  simp only [getLsbD_packed (show i < 16 by omega), BitVec.getLsbD_zero] at hclear
  rw [List.getElem?_eq_getElem hi, htrue] at hclear
  cases hclear

/-- **A burst leaves something in the register.** -/
theorem syndrome_ne_zero_of_isBurst {differences : List Bool} (h : IsBurst differences)
    (hset : true ∈ differences) : syndrome differences ≠ 0#16 := by
  obtain ⟨start, hwithin⟩ := h
  -- What stands before and behind the 16 bits is clear.
  have hfront : true ∉ differences.take start := by
    intro hmem
    obtain ⟨i, hi, htrue⟩ := List.getElem_of_mem hmem
    rw [List.length_take] at hi
    rw [List.getElem_take] at htrue
    have hstart := (hwithin i (by omega) htrue).1
    omega
  have hbehind : true ∉ (differences.drop start).drop 16 := by
    intro hmem
    rw [List.drop_drop] at hmem
    obtain ⟨i, hi, htrue⟩ := List.getElem_of_mem hmem
    rw [List.length_drop] at hi
    rw [List.getElem_drop] at htrue
    have hend := (hwithin (start + 16 + i) (by omega) htrue).2
    omega
  have hcut : differences = differences.take start ++
      ((differences.drop start).take 16 ++ (differences.drop start).drop 16) := by
    rw [List.take_append_drop, List.take_append_drop]
  have hmiddle : true ∈ (differences.drop start).take 16 := by
    rw [hcut, List.mem_append, List.mem_append] at hset
    tauto
  intro hzero
  rw [syndrome, hcut, List.foldl_append, List.foldl_append, foldl_feedBit_of_clear hfront,
    shifts_zero, foldl_feedBit_of_clear hbehind] at hzero
  exact syndrome_ne_zero_of_short (List.length_take_le _ _) hmiddle (shifts_eq_zero hzero)

/-! ## §4 Differences of odd number -/

/-- Whether an odd number of bits is set. -/
def isOdd : List Bool → Bool
  | [] => false
  | bit :: bits => bit ^^ isOdd bits

theorem isOdd_eq_decide (bits : List Bool) : isOdd bits = decide (bits.count true % 2 = 1) := by
  induction bits with
  | nil => rfl
  | cons bit bits ih =>
    rw [isOdd, ih]
    cases bit with
    | false => simp
    | true =>
      rw [List.count_cons_self, Bool.true_xor, ← decide_not]
      exact decide_eq_decide.mpr (by omega)

/-- The bits of a register. -/
def bitsOf (r : BitVec 16) : List Bool := (List.range 16).map r.getLsbD

theorem isOdd_zipWith {k l : List Bool} (h : k.length = l.length) :
    isOdd (List.zipWith (· ^^ ·) k l) = (isOdd k ^^ isOdd l) := by
  induction k generalizing l with
  | nil =>
    cases l with
    | nil => rfl
    | cons y l => cases h
  | cons x k ih =>
    cases l with
    | nil => cases h
    | cons y l =>
      rw [List.zipWith_cons_cons, isOdd, isOdd, isOdd, ih (by simpa using h),
        Bool.xor_assoc, Bool.xor_assoc, Bool.xor_left_comm y]

theorem isOdd_bitsOf_xor (r s : BitVec 16) :
    isOdd (bitsOf (r ^^^ s)) = (isOdd (bitsOf r) ^^ isOdd (bitsOf s)) := by
  have hbits : bitsOf (r ^^^ s) = List.zipWith (· ^^ ·) (bitsOf r) (bitsOf s) := by
    simp [bitsOf, List.zipWith_map, List.zipWith_self]
  rw [hbits, isOdd_zipWith (by simp [bitsOf])]

/-- Shifting loses the low bit only. -/
theorem isOdd_bitsOf_ushiftRight (r : BitVec 16) :
    isOdd (bitsOf (r >>> 1)) = (isOdd (bitsOf r) ^^ r.getLsbD 0) := by
  have htop : r.getLsbD 16 = false := BitVec.getLsbD_of_ge r 16 (Nat.le_refl _)
  simp only [bitsOf, List.range, List.range.loop, List.map_cons, List.map_nil, isOdd,
    BitVec.getLsbD_ushiftRight, Nat.reduceAdd, htop]
  cases r.getLsbD 0 <;> simp

/-- **Shifting keeps the parity**: a set bit that leaves makes way for the three of the polynomial. -/
theorem isOdd_bitsOf_shift (r : BitVec 16) : isOdd (bitsOf (shift r)) = isOdd (bitsOf r) := by
  unfold shift
  split
  · next hset =>
    have hpolynomial : isOdd (bitsOf polynomial) = true := by decide
    rw [isOdd_bitsOf_xor, isOdd_bitsOf_ushiftRight, hpolynomial, hset]
    simp
  · next hclear =>
    rw [isOdd_bitsOf_ushiftRight, Bool.eq_false_iff.mpr hclear, Bool.xor_false]

/-- **The register is odd** if the bits that were fed are. -/
theorem isOdd_bitsOf_foldl (bits : List Bool) (register : BitVec 16) :
    isOdd (bitsOf (bits.foldl feedBit register)) = (isOdd (bitsOf register) ^^ isOdd bits) := by
  induction bits generalizing register with
  | nil => simp [isOdd]
  | cons bit bits ih =>
    have hbit : isOdd (bitsOf (lowBit bit)) = bit := by cases bit <;> decide
    rw [List.foldl_cons, ih, feedBit, isOdd_bitsOf_shift, isOdd_bitsOf_xor, hbit, isOdd,
      Bool.xor_assoc]

/-- **An odd number of differences leaves something in the register.** -/
theorem syndrome_ne_zero_of_odd {differences : List Bool} (h : differences.count true % 2 = 1) :
    syndrome differences ≠ 0#16 := by
  intro hzero
  have hodd := isOdd_bitsOf_foldl differences 0#16
  have hnone : isOdd (bitsOf 0#16) = false := by decide
  rw [← syndrome, hzero, hnone, Bool.false_xor, isOdd_eq_decide, decide_eq_true h] at hodd
  cases hodd

end Checksum

/-! ## §5 Damaged images -/

namespace Vocabulary

/-- **An image with another checksum** than is expected is refused, whatever it holds. -/
theorem ofImage_of_checksum_ne {bytes : List UInt8} {expected : BitVec 16}
    (h : checksum bytes ≠ expected) (backwards : Bool) :
    ofImage bytes backwards (some expected) = .error (.wrongChecksum expected (checksum bytes)) := by
  have hwrong : (some expected).filter (· != checksum bytes) = some expected := by
    simp [Option.filter, Ne.symm h]
  rw [ofImage, hwrong]

/-- **Damage is noticed.** Bytes that differ from an image of the same length within 16 bits in a row,
the low bit of each byte first, or in an odd number of bits, have another checksum. So they are refused
where the checksum of the image is expected, and the vocabulary stays as it is. -/
theorem load_of_damage {image damaged : List UInt8} (hlength : image.length = damaged.length)
    (hne : image ≠ damaged)
    (hdamage : Checksum.IsBurst (Checksum.differences image damaged) ∨
      (Checksum.differences image damaged).count true % 2 = 1) :
    checksum image ≠ checksum damaged ∧
    ∀ (v : Vocabulary) (backwards : Bool),
      ofImage damaged backwards (some (checksum image)) =
        .error (.wrongChecksum (checksum image) (checksum damaged)) ∧
      v.perform (.load damaged backwards (some (checksum image))) = v := by
  have hsum : checksum image ≠ checksum damaged := by
    rw [Ne, Checksum.checksum_eq_iff hlength]
    rcases hdamage with hburst | hodd
    · exact Checksum.syndrome_ne_zero_of_isBurst hburst (Checksum.mem_differences hlength hne)
    · exact Checksum.syndrome_ne_zero_of_odd hodd
  refine ⟨hsum, fun v backwards => ?_⟩
  have hrefused := ofImage_of_checksum_ne (Ne.symm hsum) backwards
  refine ⟨hrefused, ?_⟩
  rw [perform, load, hrefused]

/-- The image of `AT` and `BT` with bits changed from the top one of its fourth byte on. -/
def damagedImageOfTwo : List UInt8 :=
  [0x44, 0x41, 0x57, 0xC7, 0x14, 0x7F, 0, 0, 0, 4, 0, 0, 0x41, 0x0C, 0, 0, 0x42, 0x0E, 0, 0, 0x54, 3,
    0, 0]

/-- Nine of 16 bits in a row are changed, in three bytes. -/
theorem load_of_sixteen_bits :
    (Checksum.differences WordGraph.imageOfTwo damagedImageOfTwo).count true = 9 ∧
    Checksum.IsBurst (Checksum.differences WordGraph.imageOfTwo damagedImageOfTwo) ∧
    checksum WordGraph.imageOfTwo ≠ checksum damagedImageOfTwo ∧
    empty.perform (.load damagedImageOfTwo false (some (checksum WordGraph.imageOfTwo))) = empty := by
  have hburst : Checksum.IsBurst (Checksum.differences WordGraph.imageOfTwo damagedImageOfTwo) :=
    ⟨31, by decide +kernel⟩
  obtain ⟨hsum, hrefused⟩ := load_of_damage (by decide) (by decide) (.inl hburst)
  exact ⟨by decide +kernel, hburst, hsum, (hrefused empty false).2⟩

end Vocabulary

end WordStudy
