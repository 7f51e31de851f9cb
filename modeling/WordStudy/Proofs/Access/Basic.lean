import WordStudy.Word.LetterSet

/-!
# Checked accesses

Letters are counted in tables of 26 places, sets of letters and live positions are kept in words of
32 and of 128 bits, and texts are cut at places of their bytes. None of this is possible for every
argument. Here each such access is **checked**: it gives its result, or the fault that it would be.
A function that is written with checked accesses and gives what the unchecked one does, never makes
a fault.
-/

namespace WordStudy

/-- An access that is not possible. -/
inductive AccessFault where
  /-- The byte is no capital letter, so that no table of letters has a place for it. -/
  | noLetter (b : UInt8)
  /-- A text of `size` bytes is cut from `first` to before `behind`, which are not in order or not
  within it. -/
  | outOfBounds (first behind size : Nat)
  /-- A text is cut inside a character. -/
  | insideCharacter (place : Nat)
  /-- A word is shifted by as many bits as it has, or by more. -/
  | wideShift (amount width : Nat)
  deriving DecidableEq, Repr

/-- A result, or the first access that was not possible. -/
abbrev Checked (α : Type) : Type := Except AccessFault α

namespace Checked

/-! ## §1 Accesses -/

/-- The place of a letter in a table of letters. -/
def letterPlace (b : UInt8) : Checked (Fin 26) :=
  if h : isUpper b = true then pure ⟨LetterSet.place b, LetterSet.place_lt h⟩
  else throw (.noLetter b)

/-- A word with one bit, made by shifting a one. -/
def oneBit (width amount : Nat) : Checked (BitVec width) :=
  if amount < width then pure (BitVec.twoPow width amount) else throw (.wideShift amount width)

/-- Whether a bit of a word is set, found by a mask of one bit. -/
def hasBit {width : Nat} (word : BitVec width) (place : Nat) : Checked Bool := do
  let mask ← oneBit width place
  return word &&& mask != 0

/-- The bytes from place `first` on and before place `behind`. -/
def slice (bytes : List UInt8) (first behind : Nat) : Checked (List UInt8) :=
  if first ≤ behind ∧ behind ≤ bytes.length then pure ((bytes.take behind).drop first)
  else throw (.outOfBounds first behind bytes.length)

/-- The byte continues a character that began before it. -/
def isContinuation (b : UInt8) : Bool := 0x80 ≤ b && b < 0xC0

/-- A text, as its bytes, from place `first` on and before place `behind`, where characters begin
or the text ends. -/
def sliceText (text : Word) (first behind : Nat) : Checked Word :=
  if text[first]?.any isContinuation then throw (.insideCharacter first)
  else if text[behind]?.any isContinuation then throw (.insideCharacter behind)
  else slice text first behind

/-! ## §2 Accesses that are possible -/

theorem letterPlace_eq {b : UInt8} (h : isUpper b = true) :
    letterPlace b = pure ⟨LetterSet.place b, LetterSet.place_lt h⟩ := dif_pos h

theorem oneBit_eq {width amount : Nat} (h : amount < width) :
    oneBit width amount = pure (BitVec.twoPow width amount) := if_pos h

theorem hasBit_eq {width place : Nat} (word : BitVec width) (h : place < width) :
    hasBit word place = pure (word.getLsbD place) := by
  -- The mask has one bit, so what is left of the word is that bit.
  have hmask : (word &&& BitVec.twoPow width place != 0) = word.getLsbD place := by
    rw [BitVec.and_twoPow]
    cases word.getLsbD place with
    | false => simp
    | true =>
      have hne : BitVec.twoPow width place ≠ 0 := by
        intro hzero
        have hbit := congrArg (·.getLsbD place) hzero
        simp [h] at hbit
      simpa using hne
  rw [hasBit, oneBit_eq h, pure_bind, hmask]

theorem slice_eq {bytes : List UInt8} {first behind : Nat} (h : first ≤ behind)
    (h' : behind ≤ bytes.length) :
    slice bytes first behind = pure ((bytes.take behind).drop first) := if_pos ⟨h, h'⟩

/-- What stands in the middle is cut out. -/
theorem slice_append (front middle back : List UInt8) :
    slice (front ++ middle ++ back) front.length (front.length + middle.length) = pure middle := by
  rw [slice_eq (Nat.le_add_right _ _) (by simp), ← List.length_append, List.take_left, List.drop_left]

/-- **An ASCII text** may be cut anywhere. -/
theorem sliceText_eq {text : Word} (hascii : text.isAscii = true) {first behind : Nat}
    (h : first ≤ behind) (h' : behind ≤ text.length) :
    sliceText text first behind = pure ((text.take behind).drop first) := by
  -- A text of ASCII characters may be cut anywhere: no byte of it goes on a character.
  have hbegins (place : Nat) : text[place]?.any isContinuation = false := by
    cases hb : text[place]? with
    | none => rfl
    | some b =>
      have hlow : b < 0x80 :=
        of_decide_eq_true (List.all_eq_true.mp hascii b (List.mem_of_getElem? hb))
      have hnot : ¬(0x80 : UInt8) ≤ b := UInt8.not_le.mpr hlow
      simp [isContinuation, hnot]
  rw [sliceText, hbegins, hbegins]
  exact slice_eq h h'

/-! ## §3 Lists -/

/-- The elements that satisfy a checked test. -/
def filter {α : Type} (p : α → Checked Bool) : List α → Checked (List α)
  | [] => pure []
  | a :: l => do
    let keeps ← p a
    let rest ← filter p l
    return if keeps then a :: rest else rest

/-- Take one element after the other, until a step gives up. -/
def foldOption {α β : Type} (f : β → α → Checked (Option β)) : β → List α → Checked (Option β)
  | b, [] => return some b
  | b, a :: l => do
    match ← f b a with
    | none => return none
    | some next => foldOption f next l

section Lists

variable {α β : Type} {l : List α}

theorem mapM_eq {f : α → Checked β} {g : α → β} (h : ∀ a ∈ l, f a = pure (g a)) :
    l.mapM f = pure (l.map g) := by
  induction l with
  | nil => rfl
  | cons a l ih =>
    rw [List.mapM_cons, h a (by simp), ih fun b hb => h b (by simp [hb]), pure_bind, pure_bind]
    rfl

/-- Results of a checked function that makes no fault on the elements. -/
theorem exists_mapM {f : α → Checked β} (h : ∀ a ∈ l, ∃ b, f a = pure b) :
    ∃ results, l.mapM f = pure results ∧ ∀ b, b ∈ results ↔ ∃ a ∈ l, f a = pure b := by
  induction l with
  | nil => exact ⟨[], rfl, by simp⟩
  | cons a l ih =>
    obtain ⟨b, hb⟩ := h a (by simp)
    obtain ⟨results, hresults, hmem⟩ := ih fun a ha => h a (by simp [ha])
    refine ⟨b :: results, by rw [List.mapM_cons, hb, hresults]; rfl, fun c => ?_⟩
    -- What the first one gives is told apart by its result alone.
    have hhere : c = b ↔ f a = pure c := by
      rw [hb]
      exact ⟨fun h => h ▸ rfl, fun h => (Except.ok.inj h).symm⟩
    simp [hmem, hhere]

theorem filter_eq {p : α → Checked Bool} {q : α → Bool} (h : ∀ a ∈ l, p a = pure (q a)) :
    filter p l = pure (l.filter q) := by
  induction l with
  | nil => rfl
  | cons a l ih =>
    rw [filter, h a (by simp), ih fun b hb => h b (by simp [hb]), pure_bind, pure_bind,
      List.filter_cons]

theorem foldlM_eq {f : β → α → Checked β} {g : β → α → β} (h : ∀ b a, f b a = pure (g b a))
    (b : β) : l.foldlM f b = pure (l.foldl g b) := by
  induction l generalizing b with
  | nil => rfl
  | cons a l ih => rw [List.foldlM_cons, h, pure_bind, ih, List.foldl_cons]

theorem foldOption_eq {f : β → α → Checked (Option β)} {g : β → α → Option β}
    (h : ∀ b a, f b a = pure (g b a)) (b : β) : foldOption f b l = pure (l.foldlM g b) := by
  induction l generalizing b with
  | nil => rfl
  | cons a l ih =>
    rw [foldOption, h, pure_bind, List.foldlM_cons]
    cases g b a with
    | none => rfl
    | some next => exact ih next

theorem anyM_eq {p : α → Checked Bool} {q : α → Bool} (h : ∀ a ∈ l, p a = pure (q a)) :
    l.anyM p = pure (l.any q) := by
  induction l with
  | nil => rfl
  | cons a l ih =>
    rw [List.anyM_cons, h a (by simp), pure_bind, ih fun b hb => h b (by simp [hb]), List.any_cons]
    cases q a <;> rfl

theorem allM_eq {p : α → Checked Bool} {q : α → Bool} (h : ∀ a ∈ l, p a = pure (q a)) :
    l.allM p = pure (l.all q) := by
  induction l with
  | nil => rfl
  | cons a l ih =>
    rw [List.allM_cons, h a (by simp), pure_bind, ih fun b hb => h b (by simp [hb]), List.all_cons]
    cases q a <;> rfl

end Lists

end Checked

end WordStudy
