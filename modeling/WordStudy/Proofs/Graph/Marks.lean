import WordStudy.Graph.Query
import WordStudy.Proofs.Word.Capitals

/-!
# Marked words

A word that is found comes with the letters that wildcards filled in put in lower case. Nothing but
case is changed by that: in upper case, a marked word of letters is the word that was found.
-/

namespace WordStudy

/-! ## §1 One mark for each byte -/

namespace Pattern

/-- Behind a `*`, there is a mark for each byte if there is one for each byte of the rest. -/
theorem length_skipToFit {fits : Word → Bool} {marks : Word → Option (List Bool)}
    (h : ∀ w m, marks w = some m → m.length = w.length) {w : Word} {m : List Bool}
    (hm : skipToFit fits marks w = some m) : m.length = w.length := by
  induction w generalizing m with
  | nil =>
    unfold skipToFit at hm
    split at hm
    · exact h [] m hm
    · cases hm
  | cons b w ih =>
    unfold skipToFit at hm
    split at hm
    · exact h (b :: w) m hm
    · obtain ⟨rest, hrest, rfl⟩ := Option.map_eq_some_iff.mp hm
      simp [ih hrest]

theorem length_literalMarks (tokens : List Token) {w : Word} {m : List Bool}
    (h : literalMarks tokens w = some m) : m.length = w.length := by
  induction tokens generalizing w m with
  | nil =>
    cases w with
    | nil =>
      cases h
      rfl
    | cons b w => cases h
  | cons t ts ih =>
    cases t with
    -- A star looks for the first place from which the rest fits.
    | star => exact length_skipToFit (fun _ _ => ih) h
    | _ =>
      cases w with
      | nil => cases h
      | cons b w =>
        simp only [literalMarks] at h
        split at h
        · obtain ⟨rest, hrest, rfl⟩ := Option.map_eq_some_iff.mp h
          simp [ih hrest]
        · cases h

end Pattern

theorem Rack.length_spendLetters (left : List UInt8) (w : Word) :
    (spendLetters left w).length = w.length := by
  induction w generalizing left with
  | nil => rfl
  | cons b w ih =>
    unfold spendLetters
    split <;> simp [ih]

namespace GraphQuery

/-- **There is one mark for each byte** of a word. -/
theorem length_literalLetters (q : GraphQuery) (w : Word) :
    (q.literalLetters w).length = w.length := by
  have hboth {marks others : List Bool} (hmarks : marks.length = w.length)
      (hothers : others.length = w.length) : (bothLiteral marks others).length = w.length := by
    simp [bothLiteral, hmarks, hothers]
  unfold literalLetters
  -- Each pattern and each rack has as many marks as the word has bytes.
  apply List.foldlRecOn (motive := fun marks : List Bool => marks.length = w.length)
  · apply List.foldlRecOn (motive := fun marks : List Bool => marks.length = w.length)
    · simp
    · intro marks hmarks p _
      split
      · next more hmore => exact hboth hmarks (Pattern.length_literalMarks _ hmore)
      · exact hmarks
  · intro marks hmarks r _
    exact hboth hmarks (Rack.length_spendLetters _ w)

/-! ## §2 In upper case -/

/-- A plain byte, marked or not, is one byte, and the same in upper case. -/
theorem upper_marked {b : UInt8} (hb : b < 0x80) (hupper : upperByte b = b) (literal : Bool) :
    Word.upper (String.utf8EncodeChar (Char.ofNat (if literal then b else lowerByte b).toNat)) =
      [b] := by
  have hall : ∀ n < 0x80, upperByte (UInt8.ofNat n) = UInt8.ofNat n → ∀ literal : Bool,
      Word.upper (String.utf8EncodeChar (Char.ofNat
        (if literal then UInt8.ofNat n else lowerByte (UInt8.ofNat n)).toNat)) =
          [UInt8.ofNat n] := by
    decide +kernel
  have hbyte := hall b.toNat (UInt8.lt_iff_toNat_lt.mp hb)
  rw [UInt8.ofNat_toNat] at hbyte
  exact hbyte hupper literal

/-- Where each byte is written as itself in some case, so is the word. -/
theorem upper_flatMap_zip {write : UInt8 × Bool → List UInt8} {w : Word}
    (hwrite : ∀ b ∈ w, ∀ literal, Word.upper (write (b, literal)) = [b]) {marks : List Bool}
    (hlength : marks.length = w.length) : Word.upper ((w.zip marks).flatMap write) = w := by
  induction w generalizing marks with
  | nil => rfl
  | cons b w ih =>
    cases marks with
    | nil => simp at hlength
    | cons literal marks =>
      have hrest := ih (fun c hc => hwrite c (by simp [hc])) (by simpa using hlength)
      rw [List.zip_cons_cons, List.flatMap_cons, Word.upper_append, hrest,
        hwrite b (by simp) literal, List.singleton_append]

/-- **In upper case, a marked word is the word that was found.** -/
theorem upper_markWildcards (q : GraphQuery) {w : Word} (h : w.IsPlain) :
    (q.markWildcards w).upper = w := by
  apply upper_flatMap_zip _ (length_literalLetters q w)
  intro b hb literal
  exact upper_marked (h.ascii b hb) (h.upper b hb) literal

end GraphQuery

end WordStudy
