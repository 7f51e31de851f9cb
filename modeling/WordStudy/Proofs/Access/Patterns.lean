import WordStudy.Match.Pattern
import WordStudy.Proofs.Access.Tokens
import WordStudy.Proofs.Match.Spelling

/-!
# Checked matching of patterns

The live positions of a pattern are the bits of one word of 128 bits, so that each of them is reached
by a shift. A pattern has at most 127 tokens, and **as many positions as bits suffice for**.
-/

namespace WordStudy

/-- Live positions, the lowest bit for the one in front of all tokens. -/
abbrev LiveWord : Type := BitVec 128

namespace Checked

/-! ## §1 Matching -/

/-- The pattern that a text writes. -/
def readPattern (text : String) : Checked (Option Pattern) := do
  match ← readTokens (Word.ofText text) 0 with
  | none => return none
  | some tokens =>
    return if tokens.isEmpty || Pattern.maxTokens < tokens.length then none else some ⟨tokens⟩

/-- The token takes this byte. -/
def takes : Token → UInt8 → Checked Bool
  | .letter l, b => return l == b
  | .any, _ => return true
  | .star, _ => return true
  | .oneOf set, b => inSet set.word b

/-- Pass stars without a byte, the first token being at `place`. -/
def passStars : List Token → Nat → LiveWord → Checked LiveWord
  | [], _, live => return live
  | token :: tokens, place, live => do
    let live ←
      if token.isStar then do
        if ← hasBit live place then
          let bit ← oneBit 128 (place + 1)
          pure (live ||| bit)
        else pure live
      else pure live
    passStars tokens (place + 1) live

/-- Let the tokens at live positions take the byte, the first token being at `place`. -/
def takeByte (b : UInt8) : List Token → Nat → LiveWord → LiveWord → Checked LiveWord
  | [], _, _, next => return next
  | token :: tokens, place, live, next => do
    let next ←
      if ← hasBit live place then
        if token.isStar then do
          let bit ← oneBit 128 place
          pure (next ||| bit)
        else do
          if ← takes token b then
            let bit ← oneBit 128 (place + 1)
            pure (next ||| bit)
          else pure next
      else pure next
    takeByte b tokens (place + 1) live next

/-- The live positions before the first byte. -/
def startPattern (p : Pattern) : Checked LiveWord := passStars p.tokens 0 1

/-- The live positions behind one more byte, none of them if the pattern gives up. -/
def stepPattern (p : Pattern) (live : LiveWord) (b : UInt8) : Checked LiveWord := do
  let next ← takeByte b p.tokens 0 live 0
  passStars p.tokens 0 next

/-- The position behind all tokens is live. -/
def completePattern (p : Pattern) (live : LiveWord) : Checked Bool := hasBit live p.tokens.length

/-- The pattern spells the rest of a word. -/
def spellsRest (p : Pattern) (live : LiveWord) : Word → Checked Bool
  | [] => completePattern p live
  | b :: w => do
    let next ← stepPattern p live b
    if next = 0 then return false else spellsRest p next w

/-- The pattern spells the whole word. -/
def spellsPattern (p : Pattern) (w : Word) : Checked Bool := do
  let live ← startPattern p
  spellsRest p live w

/-- For each byte of a word, whether a letter token spells it. A star takes a byte only when the tokens
behind it do not spell the rest. -/
def literalPath : List Token → Word → Checked (Option (List Bool))
  | [], [] => return some []
  | [], _ :: _ => return none
  | .star :: tokens, [] => literalPath tokens []
  | .star :: tokens, b :: w => do
    match ← literalPath tokens (b :: w) with
    | some marks => return some marks
    | none => do
      let marks ← literalPath (.star :: tokens) w
      return marks.map (false :: ·)
  | _ :: _, [] => return none
  | token :: tokens, b :: w => do
    if ← takes token b then
      let marks ← literalPath tokens w
      return marks.map (token.isLetter :: ·)
    else return none
termination_by tokens w => (tokens, w)

/-! ## §2 Bits and positions -/

/-- The bits from `place` on are the positions of a list. -/
def Shows (word : LiveWord) (place : Nat) (live : Live) : Prop :=
  ∀ i, word.getLsbD (place + i) = live[i]?.getD false

theorem shows_cons {word : LiveWord} {place : Nat} {here : Bool} {live : Live} :
    Shows word place (here :: live) ↔ word.getLsbD place = here ∧ Shows word (place + 1) live := by
  constructor
  · intro h
    refine ⟨h 0, fun i => ?_⟩
    have hnext := h (i + 1)
    rwa [List.getElem?_cons_succ, Nat.add_comm i, ← Nat.add_assoc] at hnext
  · rintro ⟨hhere, hlive⟩ i
    cases i with
    | zero => exact hhere
    | succ i =>
      rw [List.getElem?_cons_succ, Nat.add_comm i, ← Nat.add_assoc]
      exact hlive i

/-- The positions with stars passed. -/
def passed : List Token → Live → Live
  | token :: tokens, here :: next :: live =>
    here :: passed tokens ((next || (token.isStar && here)) :: live)
  | _, live => live

/-- The positions that the tokens at live ones reach with a byte, no star being passed. -/
def taken (b : UInt8) : List Token → Live → Bool → Live
  | token :: tokens, was :: live, arrives =>
    (arrives || (token.isStar && was)) ::
      taken b tokens live (!token.isStar && was && token.takes b)
  | _, _, arrives => [arrives]

/-- What arrives changes the first position only. -/
theorem taken_eq_cons (b : UInt8) (tokens : List Token) (live : Live) :
    ∃ stays rest, ∀ arrives, taken b tokens live arrives = (arrives || stays) :: rest := by
  cases tokens with
  | nil => exact ⟨false, [], by simp [taken]⟩
  | cons token tokens =>
    cases live with
    | nil => exact ⟨false, [], by simp [taken]⟩
    | cons was live => exact ⟨_, _, fun _ => rfl⟩

/-- **A step** takes the byte and passes stars then. -/
theorem passed_taken (b : UInt8) (tokens : List Token) (live : Live) (arrives : Bool) :
    passed tokens (taken b tokens live arrives) =
      Pattern.rules.liveStep b tokens live arrives := by
  induction tokens generalizing live arrives with
  | nil => simp [passed, taken, SignRules.liveStep]
  | cons token tokens ih =>
    cases live with
    | nil => simp [passed, taken, SignRules.liveStep]
    | cons was live =>
      obtain ⟨stays, rest, hrest⟩ := taken_eq_cons b tokens live
      have hih (arrives : Bool) : passed tokens ((arrives || stays) :: rest) =
          Pattern.rules.liveStep b tokens live arrives := by
        rw [← hrest]
        exact ih live arrives
      let here := arrives || (token.isStar && was)
      -- What is carried to the next position came there by the token or past a star.
      have hcarry : ((!token.isStar && was && token.takes b) || stays || (token.isStar && here)) =
          ((if token.isStar then here else was && token.takes b) || stays) := by
        cases token.isStar with
        | false => simp
        | true => simp [Bool.or_comm]
      rw [taken, hrest, passed, SignRules.liveStep, hcarry, hih]
      rfl

theorem passed_start (tokens : List Token) (here : Bool) :
    passed tokens (here :: List.replicate tokens.length false) =
      Pattern.rules.liveStart tokens here := by
  induction tokens generalizing here with
  | nil => rfl
  | cons token tokens ih =>
    rw [List.length_cons, List.replicate_succ, passed, Bool.false_or, ih, SignRules.liveStart,
      Bool.and_comm]
    rfl

theorem length_taken (b : UInt8) (tokens : List Token) {live : Live} (arrives : Bool)
    (h : live.length = tokens.length + 1) :
    (taken b tokens live arrives).length = tokens.length + 1 := by
  induction tokens generalizing live arrives with
  | nil => simp [taken]
  | cons token tokens ih =>
    obtain ⟨was, live, rfl⟩ := List.exists_cons_of_length_eq_add_one h
    rw [taken, List.length_cons, ih _ (by simpa using h), List.length_cons]

theorem length_liveStep (b : UInt8) (tokens : List Token) {live : Live} (arrives : Bool)
    (h : live.length = tokens.length + 1) :
    (Pattern.rules.liveStep b tokens live arrives).length = tokens.length + 1 := by
  induction tokens generalizing live arrives with
  | nil => simp [SignRules.liveStep]
  | cons token tokens ih =>
    obtain ⟨was, live, rfl⟩ := List.exists_cons_of_length_eq_add_one h
    rw [SignRules.liveStep, List.length_cons, ih _ (by simpa using h), List.length_cons]

/-! ## §3 Words and positions -/

theorem takes_eq (token : Token) (b : UInt8) : takes token b = pure (token.takes b) := by
  cases token with
  | oneOf set => exact inSet_eq set b
  | _ => rfl

theorem getLsbD_or_twoPow (word : LiveWord) {place : Nat} (h : place < 128) (i : Nat) :
    (word ||| BitVec.twoPow 128 place).getLsbD i = (word.getLsbD i || decide (i = place)) := by
  simp [h, eq_comm]

/-- **Stars are passed** along the bits, and those in front of the tokens stay. -/
theorem passStars_eq (tokens : List Token) {place : Nat} {word : LiveWord} {live : Live}
    (hplace : place + tokens.length < 128) (hlength : live.length = tokens.length + 1)
    (h : Shows word place live) :
    ∃ next, passStars tokens place word = pure next ∧ Shows next place (passed tokens live) ∧
      ∀ i < place, next.getLsbD i = word.getLsbD i := by
  induction tokens generalizing place word live with
  | nil => exact ⟨word, rfl, h, fun _ _ => rfl⟩
  | cons token tokens ih =>
    rw [List.length_cons] at hplace hlength
    obtain ⟨here, next, live, rfl⟩ : ∃ here next rest, live = here :: next :: rest := by
      obtain ⟨here, rest, rfl⟩ := List.exists_cons_of_length_eq_add_one hlength
      obtain ⟨next, rest, rfl⟩ := List.exists_cons_of_length_eq_add_one (Nat.succ.inj hlength)
      exact ⟨here, next, rest, rfl⟩
    rw [shows_cons, shows_cons] at h
    obtain ⟨hhere, hnext, hrest⟩ := h
    -- The one bit that may be set is the next one.
    obtain ⟨word', hstep, hbits⟩ : ∃ word', passStars (token :: tokens) place word =
        passStars tokens (place + 1) word' ∧
          ∀ i, word'.getLsbD i =
            (word.getLsbD i || (token.isStar && here && decide (i = place + 1))) := by
      rw [passStars, hasBit_eq word (by omega), oneBit_eq (by omega), hhere]
      cases token.isStar with
      | false => exact ⟨word, rfl, by simp⟩
      | true =>
        cases here with
        | false => exact ⟨word, rfl, by simp⟩
        | true => exact ⟨_, rfl, fun i => by simp [getLsbD_or_twoPow word (by omega : place + 1 < 128)]⟩
    have hshows : Shows word' (place + 1) ((next || (token.isStar && here)) :: live) := by
      refine shows_cons.mpr ⟨by simp [hbits, hnext], fun i => ?_⟩
      have hne : place + 1 + 1 + i ≠ place + 1 := by omega
      simp [hbits, hrest i, hne]
    obtain ⟨result, hresult, hlive, hbefore⟩ := ih (by omega) (by simpa using hlength) hshows
    refine ⟨result, hstep.trans hresult, shows_cons.mpr ⟨?_, hlive⟩, fun i hi => ?_⟩
    · rw [hbefore place (by omega), hbits, hhere]
      simp
    · rw [hbefore i (by omega), hbits]
      have hne : i ≠ place + 1 := by omega
      simp [hne]

/-- **Tokens take the byte** at live bits, when the bits reached so far are known. -/
theorem takeByte_eq (b : UInt8) (tokens : List Token) {place : Nat} {word next : LiveWord}
    {live : Live} {arrives : Bool} (hplace : place + tokens.length < 128)
    (hlength : live.length = tokens.length + 1) (h : Shows word place live)
    (hnext : Shows next place [arrives]) :
    ∃ result, takeByte b tokens place word next = pure result ∧
      Shows result place (taken b tokens live arrives) ∧
      ∀ i < place, result.getLsbD i = next.getLsbD i := by
  induction tokens generalizing place next live arrives with
  | nil => exact ⟨next, rfl, by simpa [taken] using hnext, fun _ _ => rfl⟩
  | cons token tokens ih =>
    rw [List.length_cons] at hplace hlength
    obtain ⟨was, live, rfl⟩ := List.exists_cons_of_length_eq_add_one hlength
    rw [shows_cons] at h hnext
    obtain ⟨hwas, hrest⟩ := h
    obtain ⟨harrives, hnone⟩ := hnext
    -- A star sets its own bit, and any other token that takes the byte the next one.
    obtain ⟨next', hstep, hbits⟩ : ∃ next', takeByte b (token :: tokens) place word next =
        takeByte b tokens (place + 1) word next' ∧
          ∀ i, next'.getLsbD i = (next.getLsbD i || (token.isStar && was && decide (i = place)) ||
            (!token.isStar && was && token.takes b && decide (i = place + 1))) := by
      rw [takeByte, hasBit_eq word (by omega), oneBit_eq (by omega), oneBit_eq (by omega), hwas,
        takes_eq]
      cases was with
      | false => exact ⟨next, rfl, by simp⟩
      | true =>
        cases token.isStar with
        | true => exact ⟨_, rfl, fun i => by simp [getLsbD_or_twoPow next (by omega : place < 128)]⟩
        | false =>
          cases token.takes b with
          | false => exact ⟨next, rfl, by simp⟩
          | true =>
            exact ⟨_, rfl, fun i => by simp [getLsbD_or_twoPow next (by omega : place + 1 < 128)]⟩
    have hshows : Shows next' (place + 1) [!token.isStar && was && token.takes b] := by
      have hfirst : next.getLsbD (place + 1) = false := hnone 0
      refine shows_cons.mpr ⟨by simp [hbits, hfirst], fun i => ?_⟩
      have hlater := hnone (1 + i)
      rw [← Nat.add_assoc] at hlater
      have hne : place + 1 + 1 + i ≠ place := by omega
      have hne' : place + 1 + 1 + i ≠ place + 1 := by omega
      simpa [hbits, hne, hne'] using hlater
    obtain ⟨result, hresult, hlive, hbefore⟩ := ih (by omega) (by simpa using hlength) hrest hshows
    refine ⟨result, hstep.trans hresult, shows_cons.mpr ⟨?_, hlive⟩, fun i hi => ?_⟩
    · rw [hbefore place (by omega), hbits, harrives]
      simp
    · rw [hbefore i (by omega), hbits]
      have hne : i ≠ place := by omega
      have hne' : i ≠ place + 1 := by omega
      simp [hne, hne']

/-! ## §4 Patterns -/

/-- **Reading a pattern** makes no fault. -/
theorem readPattern_eq (text : String) : readPattern text = pure (Pattern.read text) := by
  rw [readPattern, readTokens_eq, pure_bind, Pattern.read]
  cases Token.read text <;> rfl

/-- What is read is within the limit. -/
theorem length_tokens_of_read {text : String} {p : Pattern} (h : Pattern.read text = some p) :
    p.tokens.length ≤ Pattern.maxTokens := by
  unfold Pattern.read at h
  split at h
  · cases h
  · split at h
    · cases h
    · next hlimits =>
      cases h
      simp only [Bool.or_eq_true, decide_eq_true_eq, not_or, Nat.not_lt] at hlimits
      exact hlimits.2

/-- The bits are the live positions of a pattern: one for each number of tokens. -/
structure ShowsPattern (p : Pattern) (word : LiveWord) (live : Live) : Prop where
  shows : Shows word 0 live
  length_eq : live.length = p.tokens.length + 1

theorem ShowsPattern.eq_zero_iff {p : Pattern} {word : LiveWord} {live : Live}
    (h : ShowsPattern p word live) : word = 0 ↔ live.any = false := by
  -- A bit stands for a place of the pattern, and all other bits are clear.
  have hbit (i : Nat) : word.getLsbD i = live[i]?.getD false := by
    have hi := h.shows i
    rwa [Nat.zero_add] at hi
  have hzero (i : Nat) : (0 : LiveWord).getLsbD i = false := BitVec.getLsbD_zero
  rw [Live.any, List.any_eq_false]
  constructor
  · rintro rfl here hhere
    obtain ⟨i, hi⟩ := List.getElem?_of_mem hhere
    have hi' := hbit i
    rw [hi, hzero] at hi'
    simpa using hi'.symm
  · intro hnone
    apply BitVec.eq_of_getLsbD_eq
    intro i _
    rw [hbit, hzero]
    cases hi : live[i]? with
    | none => rfl
    | some here => simpa using hnone here (List.mem_of_getElem? hi)

section Patterns

variable {p : Pattern} (hp : p.tokens.length ≤ Pattern.maxTokens)

include hp in
/-- The positions of a pattern fit into a word. -/
theorem zero_add_length_lt : 0 + p.tokens.length < 128 := by
  rw [Nat.zero_add]
  exact Nat.lt_succ_of_le hp

theorem length_liveStart (tokens : List Token) (here : Bool) :
    (Pattern.rules.liveStart tokens here).length = tokens.length + 1 := by
  induction tokens generalizing here with
  | nil => rfl
  | cons token tokens ih => rw [SignRules.liveStart, List.length_cons, ih, List.length_cons]

include hp in
/-- **The first positions** are found without a fault. -/
theorem startPattern_eq : ∃ word, startPattern p = pure word ∧ ShowsPattern p word p.start := by
  -- Before the first byte only the place in front of the pattern is live.
  have hone : Shows 1 0 (true :: List.replicate p.tokens.length false) := by
    refine shows_cons.mpr ⟨by decide, fun i => ?_⟩
    have hzero : BitVec.getLsbD (1#128) (0 + 1 + i) = false := by
      rw [BitVec.getLsbD_one]
      simp
    rw [List.getElem?_replicate]
    refine hzero.trans ?_
    split <;> rfl
  obtain ⟨word, hword, hshows, -⟩ :=
    passStars_eq p.tokens (zero_add_length_lt hp) (by simp) hone
  rw [passed_start] at hshows
  exact ⟨word, hword, hshows, length_liveStart p.tokens true⟩

include hp in
/-- **A step** finds the next positions without a fault, and none of them if the pattern gives up. -/
theorem stepPattern_eq {word : LiveWord} {live : Live} (h : ShowsPattern p word live) (b : UInt8) :
    ∃ next, stepPattern p word b = pure next ∧
      match p.step live b with
      | none => next = 0
      | some live' => next ≠ 0 ∧ ShowsPattern p next live' := by
  have hnone : Shows 0 0 [false] := by
    refine shows_cons.mpr ⟨by simp, fun i => by simp⟩
  -- First the byte moves the live places on, then the stars are passed.
  obtain ⟨reached, hreached, hshows, -⟩ :=
    takeByte_eq b p.tokens (zero_add_length_lt hp) h.length_eq h.shows hnone
  obtain ⟨next, hnext, hshows, -⟩ :=
    passStars_eq p.tokens (zero_add_length_lt hp) (length_taken b _ _ h.length_eq) hshows
  rw [passed_taken] at hshows
  refine ⟨next, by rw [stepPattern, hreached, pure_bind, hnext], ?_⟩
  have hnext := ShowsPattern.mk hshows (length_liveStep b _ _ h.length_eq)
  have hzero := hnext.eq_zero_iff
  have hstep : p.step live b =
      if (Pattern.rules.liveStep b p.tokens live false).any then
        some (Pattern.rules.liveStep b p.tokens live false)
      else none := rfl
  rw [hstep]
  by_cases hany : (Pattern.rules.liveStep b p.tokens live false).any = true
  · rw [if_pos hany]
    exact ⟨fun heq => by simp [hzero.mp heq] at hany, hnext⟩
  · rw [if_neg hany]
    exact hzero.mpr (by simpa using hany)

include hp in
theorem completePattern_eq {word : LiveWord} {live : Live} (h : ShowsPattern p word live) :
    completePattern p word = pure live.complete := by
  have hlast := h.shows p.tokens.length
  have hplace := zero_add_length_lt hp
  rw [Nat.zero_add] at hlast hplace
  rw [completePattern, hasBit_eq word hplace, hlast, Live.complete, List.getLast?_eq_getElem?,
    h.length_eq, Nat.add_sub_cancel]

include hp in
theorem spellsRest_eq (w : Word) {word : LiveWord} {live : Live} (h : ShowsPattern p word live) :
    spellsRest p word w = pure (match w.foldlM p.step live with
      | some live => live.complete
      | none => false) := by
  induction w generalizing word live with
  | nil => exact completePattern_eq hp h
  | cons b w ih =>
    obtain ⟨next, hnext, hstep⟩ := stepPattern_eq hp h b
    rw [spellsRest, hnext, pure_bind, List.foldlM_cons]
    -- No place is live just if the bits are all clear, which ends both searches.
    cases hlive : p.step live b with
    | none =>
      rw [hlive] at hstep
      rw [if_pos hstep]
      rfl
    | some live' =>
      rw [hlive] at hstep
      rw [if_neg hstep.1, ih hstep.2]
      rfl

include hp in
/-- **Matching a whole word** makes no fault, whatever its bytes are. -/
theorem spellsPattern_eq (w : Word) : spellsPattern p w = pure (p.spells w) := by
  obtain ⟨word, hword, hshows⟩ := startPattern_eq hp
  rw [spellsPattern, hword, pure_bind, spellsRest_eq hp w hshows]
  rfl

end Patterns

/-! ## §5 Literal letters -/

section Marks

open Pattern

variable (tokens : List Token) (b : UInt8) (w : Word)

theorem spelledBy_nil : spelledBy [] w = w.isEmpty := by
  rw [Bool.eq_iff_iff, spelledBy, SignRules.spells_iff, SignRules.spelling_nil, List.isEmpty_iff]

theorem spelledBy_star_nil : spelledBy (.star :: tokens) [] = spelledBy tokens [] := by
  rw [Bool.eq_iff_iff, spelledBy, spelledBy, SignRules.spells_iff, SignRules.spells_iff,
    SignRules.spelling_cons_nil]
  exact and_iff_right rfl

theorem spelledBy_star_cons : spelledBy (.star :: tokens) (b :: w) =
    (spelledBy tokens (b :: w) || spelledBy (.star :: tokens) w) := by
  rw [Bool.eq_iff_iff, Bool.or_eq_true, spelledBy, spelledBy, spelledBy, SignRules.spells_iff,
    SignRules.spells_iff, SignRules.spells_iff, SignRules.spelling_star_cons rfl]

variable {token : Token} (htoken : token.isStar = false)

include htoken in
theorem spelledBy_one_nil : spelledBy (token :: tokens) [] = false := by
  rw [Bool.eq_false_iff, spelledBy, Ne, SignRules.spells_iff, SignRules.spelling_cons_nil]
  intro h
  exact Bool.false_ne_true (htoken.symm.trans h.1)

include htoken in
theorem spelledBy_one_cons :
    spelledBy (token :: tokens) (b :: w) = (token.takes b && spelledBy tokens w) := by
  rw [Bool.eq_iff_iff, Bool.and_eq_true, spelledBy, spelledBy, SignRules.spells_iff,
    SignRules.spells_iff, SignRules.spelling_one_cons htoken]
  rfl

include htoken in
theorem literalMarks_one_nil : literalMarks (token :: tokens) [] = none := by
  cases token with
  | star => cases htoken
  | _ => rfl

include htoken in
theorem literalMarks_one_cons : literalMarks (token :: tokens) (b :: w) =
    if token.takes b then (literalMarks tokens w).map (token.isLetter :: ·) else none := by
  cases token with
  | star => cases htoken
  | _ => rfl

theorem isStar_eq_false {token : Token} (h : token ≠ .star) : token.isStar = false := by
  cases token with
  | star => exact absurd rfl h
  | _ => rfl

theorem eq_star_of_isStar {token : Token} (h : token.isStar = true) : token = .star := by
  cases token with
  | star => rfl
  | _ => cases h

/-- **There are marks** exactly if the tokens spell the word. -/
theorem isSome_literalMarks : (literalMarks tokens w).isSome = spelledBy tokens w := by
  induction tokens generalizing w with
  | nil => cases w <;> simp [literalMarks, spelledBy_nil]
  | cons token tokens ih =>
    cases htoken : token.isStar with
    | true =>
      obtain rfl := eq_star_of_isStar htoken
      -- The star may take a byte more, so that the tokens stay and the word gets shorter.
      induction w with
      | nil =>
        rw [literalMarks, skipToFit, spelledBy_star_nil]
        split <;> simp_all
      | cons b w ihWord =>
        rw [literalMarks] at ihWord ⊢
        rw [skipToFit, spelledBy_star_cons]
        split
        · next hfits => rw [ih, hfits, Bool.true_or]
        · next hfits => simp [Bool.eq_false_iff.mpr hfits, ihWord]
    | false =>
      cases w with
      | nil => rw [spelledBy_one_nil _ htoken, literalMarks_one_nil _ htoken]; rfl
      | cons b w =>
        rw [spelledBy_one_cons _ _ _ htoken, literalMarks_one_cons _ _ _ htoken, ← ih]
        cases token.takes b <;> simp

/-- A star takes no byte more than it has to. -/
theorem literalMarks_star_cons : literalMarks (.star :: tokens) (b :: w) =
    match literalMarks tokens (b :: w) with
    | some marks => some marks
    | none => (literalMarks (.star :: tokens) w).map (false :: ·) := by
  have hfits := isSome_literalMarks tokens (b :: w)
  rw [literalMarks, skipToFit, ← hfits]
  cases literalMarks tokens (b :: w) <;> rfl

theorem literalMarks_star_nil : literalMarks (.star :: tokens) [] = literalMarks tokens [] := by
  have hfits := isSome_literalMarks tokens []
  rw [literalMarks, skipToFit, ← hfits]
  cases literalMarks tokens [] <;> rfl

/-- **Marks are found** without a fault. -/
theorem literalPath_eq : literalPath tokens w = pure (literalMarks tokens w) := by
  -- The cases are those of the search: a star tries first to stand for nothing.
  fun_induction literalPath with
  | case1 => rfl
  | case2 => rfl
  | case3 tokens ih => rw [ih, literalMarks_star_nil]
  | case4 tokens b w ihRest ihMore =>
    rw [ihRest, pure_bind, literalMarks_star_cons]
    cases literalMarks tokens (b :: w) with
    | some marks => rfl
    | none => rw [ihMore]; rfl
  | case5 token tokens hstar =>
    have htoken := isStar_eq_false hstar
    rw [literalMarks_one_nil _ htoken]
  | case6 token tokens b w hstar ih =>
    have htoken := isStar_eq_false hstar
    rw [takes_eq, pure_bind, literalMarks_one_cons _ _ _ htoken]
    cases token.takes b with
    | false => rfl
    | true => rw [if_pos rfl, if_pos rfl, ih, pure_bind]

end Marks

end Checked

end WordStudy
