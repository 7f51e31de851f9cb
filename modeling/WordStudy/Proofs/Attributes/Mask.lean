import WordStudy.Attributes.Predicate
import WordStudy.Proofs.Match.Case
import WordStudy.Proofs.Match.Spelling
import WordStudy.Proofs.Word.Capitals
import WordStudy.Search.Plan

/-!
# Masks and words of letters

Two kinds of masks are made of conditions: one of a pattern that asks for a part anywhere in the
word, and one of a letter that the word must have so many times. On a word of capital letters, the
first covers what the pattern spells, and the second counts the letter.
-/

namespace WordStudy

namespace SignRules

variable {ρ σ τ β γ : Type} {rules : SignRules σ β} {others : SignRules τ γ}

/-! ## §1 Signs that correspond -/

/-- **Signs and symbols that correspond** spell alike. -/
theorem spelling_map_iff (f : ρ → τ) (f' : ρ → σ) (g : β → γ) {p : β → Prop} {rs : List ρ}
    {bs : List β} (hstar : ∀ r ∈ rs, others.isStar (f r) = rules.isStar (f' r))
    (htakes : ∀ r ∈ rs, ∀ b, p b → others.takes (f r) (g b) = rules.takes (f' r) b)
    (hbs : ∀ b ∈ bs, p b) :
    others.Spelling (rs.map f) (bs.map g) ↔ rules.Spelling (rs.map f') bs := by
  induction rs generalizing bs with
  | nil => simp [spelling_nil]
  | cons r rs ih =>
    have hs := hstar r (by simp)
    have hrest {cs : List β} (hcs : ∀ c ∈ cs, p c) :=
      ih (fun t ht => hstar t (by simp [ht])) (fun t ht => htakes t (by simp [ht])) hcs
    have hnone := hrest (show ∀ c ∈ [], p c by simp)
    cases hkind : rules.isStar (f' r) with
    | true =>
      rw [hkind] at hs
      -- A star takes the symbols one after the other.
      induction bs with
      | nil => simpa [spelling_cons_nil, hs, hkind] using hnone
      | cons b bs ihSymbols =>
        have hfewer := ihSymbols fun c hc => hbs c (by simp [hc])
        rw [List.map_cons, List.map_cons, List.map_cons, spelling_star_cons hs,
          spelling_star_cons hkind]
        exact or_congr (hrest hbs) hfewer
    | false =>
      rw [hkind] at hs
      cases bs with
      | nil => simp [spelling_cons_nil, hs, hkind]
      | cons b bs =>
        have htake := htakes r (by simp) b (hbs b (by simp))
        rw [List.map_cons, List.map_cons, List.map_cons, spelling_one_cons hs,
          spelling_one_cons hkind, htake]
        exact and_congr_right fun _ => hrest fun c hc => hbs c (by simp [hc])

/-- A star and a sign behind it reach for some symbol that the sign takes. -/
theorem spelling_star_one {s t : σ} (hs : rules.isStar s = true) (ht : rules.isStar t = false)
    {ss : List σ} {bs : List β} :
    rules.Spelling (s :: t :: ss) bs ↔
      ∃ before b behind, bs = before ++ b :: behind ∧ rules.takes t b = true ∧
        rules.Spelling ss behind := by
  constructor
  · intro h
    obtain ⟨before, rest, rfl, _, hrest⟩ := h.uncons
    cases rest with
    | nil => simp [spelling_cons_nil, ht] at hrest
    | cons b behind =>
      obtain ⟨htakes, hbehind⟩ := (spelling_one_cons ht).mp hrest
      exact ⟨before, b, behind, rfl, htakes, hbehind⟩
  · rintro ⟨before, b, behind, rfl, htakes, hbehind⟩
    exact (spelling_star hs before).append (.one ht htakes hbehind)

end SignRules

namespace Mask

/-! ## §2 Masks without backslashes -/

/-- A character that a mask is made of and that is compared as it is. -/
def isPlain (c : Char) : Bool := c ≠ '\x00' && comparable c == c

theorem readable_of_plain {text : List Char} (h : ∀ c ∈ text, isPlain c = true) :
    readable text = text := by
  induction text with
  | nil => rfl
  | cons c text ih =>
    have hc := h c (by simp)
    simp only [isPlain, Bool.and_eq_true, decide_eq_true_eq, beq_iff_eq] at hc
    have hrest := ih fun d hd => h d (by simp [hd])
    unfold readable at hrest ⊢
    rw [List.takeWhile_cons_of_pos (by simpa using hc.1), List.map_cons, hc.2, hrest]

theorem readable_map_charOf {w : Word} (h : w.InCapitals) :
    readable (w.map charOf) = w.map charOf := by
  have hplain : ∀ b ∈ alphabet, isPlain (charOf b) = true :=
    forall_mem_of_all (by decide)
  apply readable_of_plain
  intro c hc
  obtain ⟨b, hb, rfl⟩ := List.mem_map.mp hc
  exact hplain b ((mem_alphabet_iff b).mpr (h b hb))

/-- The sign that a character of a mask writes, unless it is a backslash. -/
def signOf (c : Char) : MaskSign :=
  if c = '%' then .anyText else if c = '_' then .anyCharacter else .character c

theorem signs_cons {c : Char} (hc : c ≠ '\\') (mask : List Char) :
    signs (c :: mask) = (signs mask).map (signOf c :: ·) := by
  rw [signs.eq_def]
  split <;> simp_all [signOf]

theorem signs_of_plain {mask : List Char} (h : ∀ c ∈ mask, c ≠ '\\') :
    signs mask = some (mask.map signOf) := by
  induction mask with
  | nil => rfl
  | cons c mask ih =>
    rw [signs_cons (h c (by simp)), ih fun d hd => h d (by simp [hd])]
    rfl

/-! ## §3 Wide patterns -/

/-- The signs of which a wide pattern is made. -/
def wideSigns : List Char := alphabet.map charOf ++ lowerLetters ++ ['*', '?', '.']

theorem mem_of_isAlpha {c : Char} (h : c.isAlpha = true) :
    c ∈ alphabet.map charOf ++ lowerLetters := by
  change (c.isUpper || c.isLower) = true at h
  rw [Bool.or_eq_true] at h
  rw [List.mem_append]
  -- Either range of letters is the list of its code points, counted from the first one.
  rcases h with hupper | hlower
  · left
    change decide ('A'.val ≤ c.val ∧ c.val ≤ 'Z'.val) = true at hupper
    rw [decide_eq_true_eq] at hupper
    have hlow : 0x41 ≤ c.toNat := UInt32.le_iff_toNat_le.mp hupper.1
    have hhigh : c.toNat ≤ 0x5A := UInt32.le_iff_toNat_le.mp hupper.2
    refine List.mem_map.mpr ⟨UInt8.ofNat c.toNat, ?_, ?_⟩
    · refine List.mem_map.mpr ⟨c.toNat - 0x41, List.mem_range.mpr (by omega), ?_⟩
      rw [Nat.add_sub_cancel' hlow]
    · rw [charOf, UInt8.toNat_ofNat', Nat.mod_eq_of_lt (by omega), Char.ofNat_toNat]
  · right
    change (decide ('a'.val ≤ c.val) && decide (c.val ≤ 'z'.val)) = true at hlower
    rw [Bool.and_eq_true, decide_eq_true_eq, decide_eq_true_eq] at hlower
    have hlow : 0x61 ≤ c.toNat := UInt32.le_iff_toNat_le.mp hlower.1
    have hhigh : c.toNat ≤ 0x7A := UInt32.le_iff_toNat_le.mp hlower.2
    refine List.mem_map.mpr ⟨c.toNat - 0x61, List.mem_range.mpr (by omega), ?_⟩
    rw [Nat.add_sub_cancel' hlow, Char.ofNat_toNat]

theorem mem_wideSigns {c : Char} (h : (c.isAlpha || c == '*' || c == '?' || c == '.') = true) :
    c ∈ wideSigns := by
  simp only [Bool.or_eq_true, beq_iff_eq] at h
  rcases h with ((halpha | rfl) | rfl) | rfl
  · exact List.mem_append_left _ (mem_of_isAlpha halpha)
  all_goals exact List.mem_append_right _ (by simp)

/-- The character that stands for a sign of a wide pattern in a mask. -/
def maskChar (c : Char) : Char :=
  if c = '?' || c = '.' then '_' else if c = '*' then '%' else c.toUpper

/-- The token that a sign of a wide pattern writes. -/
def wideToken (c : Char) : Token :=
  if c.isAlpha then .letter (Token.letterOf c) else if c = '*' then .star else .any

theorem ofPattern_of_wide {signs : List Char} (h : ∀ c ∈ signs, c ∈ wideSigns) :
    ofPattern signs = signs.map maskChar := by
  have hall : ∀ c ∈ wideSigns, ofPattern [c] = [maskChar c] :=
    forall_mem_of_all (by decide)
  induction signs with
  | nil => rfl
  | cons c signs ih =>
    have hc := hall c (h c (by simp))
    rw [ofPattern, List.flatMap_singleton] at hc
    rw [ofPattern, List.flatMap_cons, hc, List.map_cons, ← ih fun d hd => h d (by simp [hd])]
    rfl

/-- A wide pattern is read sign by sign. -/
theorem scan_of_wide {signs : List Char} (h : ∀ c ∈ signs, c ∈ wideSigns) :
    Token.scan none signs = some (signs.map wideToken) := by
  have hall : ∀ c ∈ wideSigns, c ≠ '[' ∧ Token.ofSign c = some (wideToken c) :=
    forall_mem_of_all (by decide)
  induction signs with
  | nil => rfl
  | cons c signs ih =>
    obtain ⟨hopen, hsign⟩ := hall c (h c (by simp))
    rw [Token.scan, if_neg hopen, hsign, ih fun d hd => h d (by simp [hd])]
    rfl

/-- **The mask of a wide pattern covers the words that its tokens spell.** -/
theorem covers_ofPattern {signs : List Char} (h : ∀ c ∈ signs, c ∈ wideSigns) {w : Word}
    (hw : w.InCapitals) :
    covers (ofPattern signs) (Text.Utf8.characters w) =
      Pattern.rules.spells (signs.map wideToken) w := by
  have hplain : ∀ c ∈ wideSigns, isPlain (maskChar c) = true ∧ maskChar c ≠ '\\' :=
    forall_mem_of_all (by decide)
  have hstar : ∀ c ∈ wideSigns, rules.isStar (signOf (maskChar c)) = (wideToken c).isStar :=
    forall_mem_of_all (by decide)
  have htakes : ∀ c ∈ wideSigns, ∀ b ∈ alphabet,
      rules.takes (signOf (maskChar c)) (charOf b) = (wideToken c).takes b :=
    forall_mem_of_all_all (by decide +kernel)
  have hmask : ∀ c ∈ signs.map maskChar, isPlain c = true ∧ c ≠ '\\' := by
    intro c hc
    obtain ⟨d, hd, rfl⟩ := List.mem_map.mp hc
    exact hplain d (h d hd)
  rw [ofPattern_of_wide h, hw.characters, covers, readable_map_charOf hw,
    readable_of_plain fun c hc => (hmask c hc).1, signs_of_plain fun c hc => (hmask c hc).2,
    Bool.eq_iff_iff, SignRules.spells_iff, SignRules.spells_iff, List.map_map]
  -- Sign by sign, mask and pattern take the same letters.
  exact SignRules.spelling_map_iff _ wideToken charOf (fun c hc => hstar c (h c hc))
    (fun c hc b hb => htakes c (h c hc) b ((mem_alphabet_iff b).mpr hb)) hw

/-! ## §4 Letters so many times -/

/-- The signs of a mask that asks for a letter so many times. -/
def letterSigns (l : UInt8) : Nat → List MaskSign
  | 0 => [.anyText]
  | times + 1 => .anyText :: .character (charOf l) :: letterSigns l times

theorem signs_containing {l : UInt8} (hl : isUpper l = true) (times : Nat) :
    signs (readable (containing (charOf l) times)) = some (letterSigns l times) := by
  -- A letter is no sign of its own in a mask.
  have hall : ∀ b ∈ alphabet, isPlain (charOf b) = true ∧ charOf b ≠ '\\' ∧
      signOf (charOf b) = .character (charOf b) :=
    forall_mem_of_all (by decide)
  obtain ⟨hplain, hslash, hsign⟩ := hall l ((mem_alphabet_iff l).mpr hl)
  have hmask : ∀ c ∈ containing (charOf l) times, c = '%' ∨ c = charOf l := by
    intro c hc
    simp only [containing, List.mem_cons, List.mem_flatten, List.mem_replicate] at hc
    rcases hc with rfl | ⟨part, ⟨_, rfl⟩, hc⟩
    · exact .inl rfl
    · simpa [or_comm] using hc
  have hsigns : (containing (charOf l) times).map signOf = letterSigns l times := by
    induction times with
    | zero => rfl
    | succ times ih =>
      have hmore : containing (charOf l) (times + 1) =
          '%' :: charOf l :: containing (charOf l) times := by
        simp [containing, List.replicate_succ]
      have hfewer := ih fun c hc => hmask c (by simp [hmore, hc])
      rw [hmore, List.map_cons, List.map_cons, hsign, hfewer]
      rfl
  rw [readable_of_plain, signs_of_plain, hsigns]
  · intro c hc
    rcases hmask c hc with rfl | rfl
    · decide
    · exact hslash
  · intro c hc
    rcases hmask c hc with rfl | rfl
    · rfl
    · exact hplain

theorem sameCharacter_charOf {b c : UInt8} (hb : isUpper b = true) (hc : isUpper c = true) :
    sameCharacter (charOf b) (charOf c) = (b == c) := by
  have hall : ∀ b ∈ alphabet, ∀ c ∈ alphabet, sameCharacter (charOf b) (charOf c) = (b == c) :=
    forall_mem_of_all_all (by decide +kernel)
  exact hall b ((mem_alphabet_iff b).mpr hb) c ((mem_alphabet_iff c).mpr hc)

/-- A mask with a letter so many times reaches the letter that often. -/
theorem spelling_letterSigns {l : UInt8} (hl : isUpper l = true) (times : Nat) {w : Word}
    (hw : w.InCapitals) :
    rules.Spelling (letterSigns l times) (w.map charOf) ↔ times ≤ w.count l := by
  induction times generalizing w with
  | zero => simpa [letterSigns] using SignRules.spelling_star rfl _
  | succ times ih =>
    rw [letterSigns, SignRules.spelling_star_one rfl rfl]
    constructor
    · rintro ⟨before, d, behind, heq, htakes, hbehind⟩
      obtain ⟨u, rest, rfl, rfl, hrest⟩ := List.map_eq_append_iff.mp heq
      obtain ⟨c, v, rfl, rfl, rfl⟩ := List.map_eq_cons_iff.mp hrest
      have hcv : ∀ b ∈ c :: v, isUpper b = true := fun b hb => hw b (by simp [hb])
      have hcount := (ih fun b hb => hcv b (by simp [hb])).mp hbehind
      -- Capitals are the same in a mask only if they are equal.
      have hsame : l = c := by
        have htaken : sameCharacter (charOf l) (charOf c) = true := htakes
        rw [sameCharacter_charOf hl (hcv c (by simp))] at htaken
        exact beq_iff_eq.mp htaken
      subst hsame
      rw [List.count_append, List.count_cons_self]
      omega
    · intro hcount
      -- The first time that the letter stands in the word will do.
      have hmem : l ∈ w := List.count_pos_iff.mp (by omega)
      obtain ⟨u, v, rfl, hfirst⟩ := List.eq_append_cons_of_mem hmem
      rw [List.count_append, List.count_cons_self, List.count_eq_zero.mpr hfirst] at hcount
      refine ⟨u.map charOf, charOf l, v.map charOf, by simp, ?_, ?_⟩
      · exact (sameCharacter_charOf hl hl).trans (by simp)
      · exact (ih fun b hb => hw b (by simp [hb])).mpr (by omega)

/-- **The mask of a letter covers the words that have it so many times.** -/
theorem covers_containing {l : UInt8} (hl : isUpper l = true) (times : Nat) {w : Word}
    (hw : w.InCapitals) :
    covers (containing (charOf l) times) (Text.Utf8.characters w) = decide (times ≤ w.count l) := by
  rw [covers, signs_containing hl, hw.characters, readable_map_charOf hw, Bool.eq_iff_iff,
    SignRules.spells_iff, spelling_letterSigns hl times hw, decide_eq_true_eq]

end Mask

end WordStudy
