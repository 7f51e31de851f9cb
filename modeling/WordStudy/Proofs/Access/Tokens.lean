import WordStudy.Match.Token
import WordStudy.Proofs.Access.Letters
import WordStudy.Proofs.Text.Utf8

/-!
# Checked reading of tokens

Patterns and racks are read along the bytes of a text, whose place is kept as a number. Behind an
opening bracket the rest of the bytes is searched for the closing one, and what is between them is
cut out. **No text at all makes a fault**: a bracket that is found lies within the bytes, and the
bytes of longer characters are no signs.
-/

namespace WordStudy

open Text

/-! ## §1 Characters of one byte -/

/-- The characters of one byte. -/
def asciiChars : List Char := (List.range 128).map Char.ofNat

theorem mem_asciiChars {c : Char} (h : c.toNat < 128) : c ∈ asciiChars :=
  List.mem_map.mpr ⟨c.toNat, List.mem_range.mpr h, Char.ofNat_toNat c⟩

theorem lt_of_isAlpha {c : Char} (h : c.isAlpha = true) : c.toNat < 128 := by
  rcases (Bool.or_eq_true _ _).mp h with hcase | hcase
  · have hhigh : c.toNat ≤ 'Z'.toNat := (of_decide_eq_true hcase).2
    exact Nat.lt_of_le_of_lt hhigh (by decide)
  · have hhigh : c.toNat ≤ 'z'.toNat := of_decide_eq_true ((Bool.and_eq_true _ _).mp hcase).2
    exact Nat.lt_of_le_of_lt hhigh (by decide)

namespace Checked

/-! ## §2 Reading -/

/-- The token of a byte that stands alone, in either case. -/
def signToken (b : UInt8) : Option Token :=
  let sign := upperByte b
  if isUpper sign then some (.letter sign)
  else if sign = 0x3F || sign = 0x2E then some .any
  else if sign = 0x2A then some .star
  else none

/-- The class of the letters between brackets, of which there is at least one. -/
def classBody (negated : Bool) (body : Word) : Checked (Option Token) := do
  if body.isEmpty || !body.all fun b => isUpper (upperByte b) then return none
  else
    let word ← setOf (body.map upperByte)
    return some (.oneOf (.ofWord (if negated then otherLetters word else word)))

/-- The class between brackets, negated behind a `^`. -/
def classToken : Word → Checked (Option Token)
  | 0x5E :: body => classBody true body
  | body => classBody false body

/-- The tokens from a place on. -/
def readTokens (bytes : Word) (place : Nat) : Checked (Option (List Token)) :=
  match hb : bytes[place]? with
  | none => return some []
  | some b =>
    have _ : place < bytes.length := (List.getElem?_eq_some_iff.mp hb).1
    if b = 0x5B then do
      let rest ← slice bytes (place + 1) bytes.length
      match rest.findIdx? (· == 0x5D) with
      | none => return none
      | some distance =>
        let close := distance + (place + 1)
        let inner ← slice bytes (place + 1) close
        match ← classToken inner with
        | none => return none
        | some token =>
          let tokens ← readTokens bytes (close + 1)
          return tokens.map (token :: ·)
    else
      match signToken b with
      | none => return none
      | some token => do
        let tokens ← readTokens bytes (place + 1)
        return tokens.map (token :: ·)
termination_by bytes.length - place

/-! ## §3 Reading along bytes -/

theorem readTokens_end (bytes : Word) : readTokens bytes bytes.length = pure (some []) := by
  rw [readTokens]
  split
  · rfl
  · next b hb => simp at hb

theorem readTokens_sign (front back : Word) {b : UInt8} (hb : b ≠ 0x5B) :
    readTokens (front ++ b :: back) front.length =
      match signToken b with
      | none => pure none
      | some token => do
        let tokens ← readTokens (front ++ b :: back) (front.length + 1)
        return tokens.map (token :: ·) := by
  rw [readTokens]
  split
  · next hnone => simp at hnone
  · next c hc =>
    obtain rfl : b = c := by simpa using hc
    rw [if_neg hb]

theorem slice_behind (front back : Word) (b : UInt8) :
    slice (front ++ b :: back) (front.length + 1) (front ++ b :: back).length = pure back := by
  simpa [Nat.add_assoc, Nat.add_comm 1] using slice_append (front ++ [b]) back []

/-- A bracket that is not closed is malformed. -/
theorem readTokens_unclosed (front back : Word) (hback : 0x5D ∉ back) :
    readTokens (front ++ 0x5B :: back) front.length = pure none := by
  have hfind : back.findIdx? (· == 0x5D) = none := by
    rw [List.findIdx?_eq_none_iff]
    intro b hb
    rw [beq_eq_false_iff_ne]
    rintro rfl
    exact hback hb
  -- What follows the opening bracket is looked through to the end.
  rw [readTokens]
  split
  · next hnone => simp at hnone
  · next b hb =>
    obtain rfl : 0x5B = b := by simpa using hb
    rw [if_pos rfl, slice_behind, pure_bind, hfind]

/-- **Brackets** are read as a class, and what is behind them follows. -/
theorem readTokens_class (front inner back : Word) (hinner : 0x5D ∉ inner) :
    readTokens (front ++ 0x5B :: (inner ++ 0x5D :: back)) front.length = do
      match ← classToken inner with
      | none => return none
      | some token =>
        let tokens ← readTokens (front ++ 0x5B :: (inner ++ 0x5D :: back))
          (inner.length + (front.length + 1) + 1)
        return tokens.map (token :: ·) := by
  -- The bytes before the closing bracket have none, so the first one found is this one.
  have hfind : (inner ++ 0x5D :: back).findIdx? (· == 0x5D) = some inner.length := by
    have hnone : inner.findIdx? (· == 0x5D) = none := by
      rw [List.findIdx?_eq_none_iff]
      intro b hb
      rw [beq_eq_false_iff_ne]
      rintro rfl
      exact hinner hb
    simp [List.findIdx?_append, hnone, List.findIdx?_cons]
  have hslice : slice (front ++ 0x5B :: (inner ++ 0x5D :: back)) (front.length + 1)
      (inner.length + (front.length + 1)) = pure inner := by
    have hcut := slice_append (front ++ [0x5B]) inner (0x5D :: back)
    have hbytes : front ++ [0x5B] ++ inner ++ 0x5D :: back = front ++ 0x5B :: (inner ++ 0x5D :: back) := by
      simp
    rw [hbytes, List.length_append, List.length_singleton, Nat.add_comm (front.length + 1)] at hcut
    exact hcut
  rw [readTokens]
  split
  · next hnone => simp at hnone
  · next b hb =>
    obtain rfl : 0x5B = b := by simpa using hb
    rw [if_pos rfl, slice_behind, pure_bind, hfind]
    dsimp only
    rw [hslice, pure_bind]

/-! ## §4 Reading along characters -/

/-- A text that begins with the byte of a sign begins with the sign. -/
theorem head?_of_head?_encode {sign : Char} (hsign : sign.toNat < 128) {cs : List Char}
    (h : (Utf8.encode cs).head? = some (byteOf sign)) : cs.head? = some sign := by
  -- A longer character begins with a byte of 128 or more, which is no sign.
  cases cs with
  | nil => cases h
  | cons c cs =>
    rcases utf8EncodeChar_cases c with ⟨hshort, -⟩ | ⟨-, hne, hhigh⟩
    · rw [Utf8.encode_cons_of_lt hshort, List.head?_cons] at h
      have hnat := congrArg UInt8.toNat (Option.some.inj h)
      rw [toNat_byteOf hsign, toNat_byteOf hshort] at hnat
      rw [List.head?_cons, Char.toNat_inj.mp hnat]
    · obtain ⟨b, bytes, hbytes⟩ := List.exists_cons_of_ne_nil hne
      rw [Utf8.encode, List.flatMap_cons, hbytes, List.cons_append, List.head?_cons] at h
      cases h
      have hlow := UInt8.le_iff_toNat_le.mp (hhigh (byteOf sign) (by simp [hbytes]))
      rw [toNat_byteOf hsign] at hlow
      exact absurd hsign (Nat.not_lt.mpr hlow)

/-- A character is a letter if its bytes are. -/
theorem all_utf8EncodeChar (c : Char) :
    (String.utf8EncodeChar c).all (fun b => isUpper (upperByte b)) = c.isAlpha := by
  -- A longer character has a byte that is no letter, and it is itself no letter.
  rcases utf8EncodeChar_cases c with ⟨hshort, hbyte⟩ | ⟨hlong, hne, hhigh⟩
  · have hsigns : ∀ c ∈ asciiChars, isUpper (upperByte (byteOf c)) = c.isAlpha :=
      forall_mem_of_all (by decide +kernel)
    rw [hbyte, List.all_cons, List.all_nil, Bool.and_true]
    exact hsigns c (mem_asciiChars hshort)
  · have hnone : ∀ b : UInt8, 0x80 ≤ b → isUpper (upperByte b) = false := by
      intro b
      refine byte_forall (p := fun b => 0x80 ≤ b → isUpper (upperByte b) = false) ?_ b
      decide +kernel
    have halpha : c.isAlpha = false :=
      Bool.eq_false_iff.mpr fun h => absurd (lt_of_isAlpha h) (Nat.not_lt.mpr hlong)
    obtain ⟨b, bytes, hbytes⟩ := List.exists_cons_of_ne_nil hne
    have hb := hnone b (hhigh b (by simp [hbytes]))
    rw [hbytes, List.all_cons, hb, halpha, Bool.false_and]

theorem all_encode (cs : List Char) :
    (Utf8.encode cs).all (fun b => isUpper (upperByte b)) = cs.all Char.isAlpha := by
  simp only [Utf8.encode, List.all_flatMap, all_utf8EncodeChar]

theorem isEmpty_encode (cs : List Char) : (Utf8.encode cs).isEmpty = cs.isEmpty := by
  cases cs with
  | nil => rfl
  | cons c cs =>
    rcases utf8EncodeChar_cases c with ⟨-, hbyte⟩ | ⟨-, hne, -⟩
    · simp [Utf8.encode, hbyte]
    · simp [Utf8.encode, hne]

theorem map_upperByte_encode {cs : List Char} (h : cs.all Char.isAlpha = true) :
    (Utf8.encode cs).map upperByte = cs.map Token.letterOf := by
  induction cs with
  | nil => rfl
  | cons c cs ih =>
    rw [List.all_cons, Bool.and_eq_true] at h
    rw [Utf8.encode_cons_of_lt (lt_of_isAlpha h.1), List.map_cons, ih h.2]
    rfl

/-- The class of some letters, if they are letters. -/
def letterClass (negated : Bool) (letters : List Char) : Option Token :=
  if letters.isEmpty || !letters.all Char.isAlpha then none
  else
    let set := LetterSet.ofLetters (letters.map Token.letterOf)
    some (.oneOf (if negated then set.complement else set))

theorem classOf_caret (letters : List Char) :
    Token.classOf ('^' :: letters) = letterClass true letters := by
  simp only [Token.classOf, letterClass]
  split <;> rfl

theorem classOf_of_ne {inner : List Char} (h : inner.head? ≠ some '^') :
    Token.classOf inner = letterClass false inner := by
  unfold Token.classOf letterClass
  split
  · exact absurd rfl h
  · dsimp only
    split <;> rfl

theorem classBody_eq (negated : Bool) (letters : List Char) :
    classBody negated (Utf8.encode letters) = pure (letterClass negated letters) := by
  unfold classBody letterClass
  rw [isEmpty_encode, all_encode]
  split
  · rfl
  · next hletters =>
    simp only [Bool.or_eq_true, Bool.not_eq_true', not_or, Bool.not_eq_false] at hletters
    rw [map_upperByte_encode hletters.2, setOf_eq, pure_bind]
    cases negated with
    | false => simp
    | true => simp [otherLetters_eq]

theorem classToken_eq (inner : List Char) :
    classToken (Utf8.encode inner) = pure (Token.classOf inner) := by
  by_cases hcaret : inner.head? = some '^'
  · obtain ⟨letters, rfl⟩ := List.head?_eq_some_iff.mp hcaret
    rw [classOf_caret, Utf8.encode_cons_of_lt (by decide), ← classBody_eq]
    rfl
  · rw [classOf_of_ne hcaret, ← classBody_eq]
    unfold classToken
    split
    · -- The first byte would be that of a character that begins the text.
      next body hbytes =>
      have hhead : (Utf8.encode inner).head? = some (byteOf '^') := by rw [hbytes]; rfl
      exact absurd (head?_of_head?_encode (by decide) hhead) hcaret
    · rfl

theorem scan_unclosed (body : List Char) {cs : List Char} (h : ']' ∉ cs) :
    Token.scan (some body) cs = none := by
  induction cs generalizing body with
  | nil => rfl
  | cons c cs ih =>
    rw [List.mem_cons, not_or] at h
    rw [Token.scan, if_neg (Ne.symm h.1), ih _ h.2]

/-- **Inside brackets**, a class is read up to the one that closes it. -/
theorem scan_class (body : List Char) {inner : List Char} (h : ']' ∉ inner) (rest : List Char) :
    Token.scan (some body) (inner ++ ']' :: rest) =
      match Token.classOf (body.reverse ++ inner), Token.scan none rest with
      | some token, some tokens => some (token :: tokens)
      | _, _ => none := by
  induction inner generalizing body with
  | nil =>
    rw [List.nil_append, List.append_nil, Token.scan]
    exact if_pos rfl
  | cons c inner ih =>
    rw [List.mem_cons, not_or] at h
    rw [List.cons_append, Token.scan, if_neg (Ne.symm h.1), ih _ h.2]
    simp

/-- A byte alone is the token of its character. -/
theorem signToken_byteOf {c : Char} (h : c.toNat < 128) : signToken (byteOf c) = Token.ofSign c := by
  have hall : ∀ c ∈ asciiChars, signToken (byteOf c) = Token.ofSign c :=
    forall_mem_of_all (by decide +kernel)
  exact hall c (mem_asciiChars h)

/-- A longer character is no sign, and neither is its first byte. -/
theorem ofSign_of_le {c : Char} (h : 128 ≤ c.toNat) : Token.ofSign c = none := by
  have halpha : c.isAlpha = false :=
    Bool.eq_false_iff.mpr fun halpha => absurd (lt_of_isAlpha halpha) (Nat.not_lt.mpr h)
  have hne (sign : Char) (hsign : sign.toNat < 128) : c ≠ sign := by
    rintro rfl
    omega
  simp [Token.ofSign, halpha, hne '?' (by decide), hne '.' (by decide), hne '*' (by decide)]

theorem signToken_of_le {b : UInt8} (h : 0x80 ≤ b) : signToken b = none := by
  revert h
  refine byte_forall (p := fun b => 0x80 ≤ b → signToken b = none) ?_ b
  decide +kernel

section Characters

variable {cs ds : List Char} {c : Char}

/-- The bytes of a sign stand between those of what is before it and behind it. -/
theorem encode_middle (h : c.toNat < 128) :
    Utf8.encode (cs ++ c :: ds) = Utf8.encode cs ++ byteOf c :: Utf8.encode ds := by
  rw [Utf8.encode_append, Utf8.encode_cons_of_lt h]

/-- A sign of one byte is read, and what is behind it follows. -/
theorem readTokens_short (hshort : c.toNat < 128) (hopen : c ≠ '[')
    (hrest : readTokens (Utf8.encode (cs ++ c :: ds)) (Utf8.encode (cs ++ [c])).length =
      pure (Token.scan none ds)) :
    readTokens (Utf8.encode (cs ++ c :: ds)) (Utf8.encode cs).length =
      pure (Token.scan none (c :: ds)) := by
  -- A character of one byte stands for itself, and it is no opening bracket.
  have hb : byteOf c ≠ 0x5B := by
    intro heq
    have hhead : (Utf8.encode [c]).head? = some (byteOf '[') := by
      rw [Utf8.encode_cons_of_lt hshort, heq]
      rfl
    exact hopen (Option.some.inj (head?_of_head?_encode (by decide) hhead))
  have hlength : (Utf8.encode (cs ++ [c])).length = (Utf8.encode cs).length + 1 := by
    rw [encode_middle hshort, List.length_append]
    rfl
  rw [hlength, encode_middle hshort] at hrest
  rw [Token.scan, if_neg hopen, encode_middle hshort, readTokens_sign _ _ hb, signToken_byteOf hshort]
  cases Token.ofSign c with
  | none => rfl
  | some token =>
    dsimp only
    rw [hrest, pure_bind]
    cases Token.scan none ds <;> rfl

/-- A longer character is no sign. -/
theorem readTokens_long (hlong : 128 ≤ c.toNat) :
    readTokens (Utf8.encode (cs ++ c :: ds)) (Utf8.encode cs).length =
      pure (Token.scan none (c :: ds)) := by
  have hopen : c ≠ '[' := by
    rintro rfl
    -- Its first byte is no sign at all, so the scan fails at it as the reading does.
    exact absurd hlong (by decide)
  rcases utf8EncodeChar_cases c with ⟨hshort, -⟩ | ⟨-, hne, hhigh⟩
  · omega
  obtain ⟨b, bytes, hb⟩ := List.exists_cons_of_ne_nil hne
  have hbytes : Utf8.encode (cs ++ c :: ds) = Utf8.encode cs ++ b :: (bytes ++ Utf8.encode ds) := by
    rw [Utf8.encode_append, Utf8.encode, Utf8.encode, List.flatMap_cons, hb]
    rfl
  have hhigh := hhigh b (by simp [hb])
  have hne : b ≠ 0x5B := by
    rintro rfl
    exact absurd hhigh (by decide)
  rw [Token.scan, if_neg hopen, ofSign_of_le hlong, hbytes, readTokens_sign _ _ hne,
    signToken_of_le hhigh]

/-- **Brackets** are read as a class, and what is behind them follows. -/
theorem readTokens_brackets {inner : List Char} (hinner : ']' ∉ inner)
    (hrest : readTokens (Utf8.encode (cs ++ '[' :: (inner ++ ']' :: ds)))
      (Utf8.encode (cs ++ '[' :: (inner ++ [']']))).length = pure (Token.scan none ds)) :
    readTokens (Utf8.encode (cs ++ '[' :: (inner ++ ']' :: ds))) (Utf8.encode cs).length =
      pure (Token.scan none ('[' :: (inner ++ ']' :: ds))) := by
  have hencode (ds : List Char) : Utf8.encode (cs ++ '[' :: (inner ++ ']' :: ds)) =
      Utf8.encode cs ++ 0x5B :: (Utf8.encode inner ++ 0x5D :: Utf8.encode ds) := by
    rw [encode_middle (by decide), encode_middle (by decide)]
    rfl
  have hlength : (Utf8.encode (cs ++ '[' :: (inner ++ [']']))).length =
      (Utf8.encode inner).length + ((Utf8.encode cs).length + 1) + 1 := by
    rw [hencode, List.length_append, List.length_cons, List.length_append]
    simp [Utf8.encode]
    omega
  -- The bytes up to the closing bracket are the characters up to it.
  rw [hlength, hencode] at hrest
  rw [hencode, Token.scan, if_pos rfl, scan_class [] hinner,
    readTokens_class _ _ _ (Utf8.notMem_encode (by decide) hinner), classToken_eq, pure_bind,
    List.reverse_nil, List.nil_append]
  cases Token.classOf inner with
  | none => rfl
  | some token =>
    dsimp only
    rw [hrest, pure_bind]
    cases Token.scan none ds <;> rfl

end Characters

/-- **Tokens are read** behind what was read before, as they are read along characters. -/
theorem readTokens_encode (cs ds : List Char) :
    readTokens (Utf8.encode (cs ++ ds)) (Utf8.encode cs).length = pure (Token.scan none ds) := by
  -- What is behind a class begins as many characters later as the class has.
  induction hn : ds.length using Nat.strongRecOn generalizing cs ds with
  | ind n ih =>
    cases ds with
    | nil =>
      rw [List.append_nil]
      exact readTokens_end _
    | cons c ds =>
      have hnext (more rest : List Char) (hds : c :: ds = more ++ rest) (hne : more ≠ []) :
          readTokens (Utf8.encode (cs ++ c :: ds)) (Utf8.encode (cs ++ more)).length =
            pure (Token.scan none rest) := by
        have hshorter : rest.length < n := by
          have hlength := congrArg List.length hds
          have hpos := List.length_pos_iff.mpr hne
          rw [List.length_append] at hlength
          omega
        rw [hds, ← List.append_assoc]
        exact ih rest.length hshorter (cs ++ more) rest rfl
      by_cases hlong : 128 ≤ c.toNat
      · exact readTokens_long hlong
      by_cases hopen : c = '['
      · subst hopen
        by_cases hclose : ']' ∈ ds
        · obtain ⟨inner, rest, rfl, hinner⟩ := List.eq_append_cons_of_mem hclose
          exact readTokens_brackets hinner (hnext ('[' :: (inner ++ [']'])) rest (by simp) (by simp))
        · have hunclosed := Utf8.notMem_encode (by decide) hclose
          rw [encode_middle (by decide), Token.scan, if_pos rfl, scan_unclosed _ hclose]
          exact readTokens_unclosed _ _ hunclosed
      · exact readTokens_short (Nat.lt_of_not_le hlong) hopen (hnext [c] ds rfl (by simp))

/-- **Reading the bytes of a text** gives its tokens. -/
theorem readTokens_eq (text : String) :
    readTokens (Word.ofText text) 0 = pure (Token.read text) := readTokens_encode [] text.toList

end Checked

end WordStudy
