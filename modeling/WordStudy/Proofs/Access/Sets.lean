import WordStudy.Lexicon.Classifier
import WordStudy.Proofs.Access.Letters
import WordStudy.Proofs.Lexicon.Stems
import WordStudy.Proofs.Word.Alphagram

/-!
# Checked tests of study sets

Whether a word belongs to a set is found with its first or last letter cut off, with one letter cut
out of its alphagram, and with tables of letters. A text that is not ASCII belongs to no set and is
not cut at all; **one that is may be cut between any two letters**, and its alphagram too.
-/

namespace WordStudy

namespace Checked

/-! ## §1 Tests -/

/-- The word is a word without its first byte. -/
def isFrontHook (v : Vocabulary) (w : Word) : Checked Bool :=
  if 1 < w.length then do
    let rest ← sliceText w 1 w.length
    return v.contains rest
  else return false

/-- The word is a word without its last byte. -/
def isBackHook (v : Vocabulary) (w : Word) : Checked Bool :=
  if 1 < w.length then do
    let rest ← sliceText w 0 (w.length - 1)
    return v.contains rest
  else return false

/-- The text without the byte at a place. -/
def deletionAt (text : Word) (place : Nat) : Checked Word := do
  let front ← sliceText text 0 place
  let back ← sliceText text (place + 1) text.length
  return front ++ back

/-- The word extends a stem by one letter. -/
def oneShort (stems : StemIndex) (w : Word) : Checked Bool :=
  if !stems.hasLength (w.length - 1) then return false
  else (List.range w.alphagram.length).anyM fun place => do
    let reduced ← deletionAt w.alphagram place
    return stems.contains (w.length - 1) reduced

/-- The word extends a stem by two letters. -/
def twoShort (stems : StemIndex) (w : Word) : Checked Bool :=
  (stems.alphagrams (w.length - 2)).anyM (fitsIn · w)

/-- The word extends a stem of six letters. -/
def isTypeOne (stems : StemIndex) (w : Word) : Checked Bool :=
  if w.length = 7 then oneShort stems w
  else if w.length = 8 then twoShort stems w
  else return false

/-- The word is drawn from the pool and not of type one. -/
def isTypeTwo (c : Classifier) (stems : StemIndex) (w : Word) : Checked Bool := do
  if !(← fitsIn w c.pool) then return false
  else
    let one ← isTypeOne stems w
    return !one

/-- The word has at least so many draws and is of no other type. -/
def isTypeThree (c : Classifier) (stems : StemIndex) (least : Nat) (w : Word) : Checked Bool := do
  if (← draws c.bag.tables w) < least then return false
  else if ← isTypeOne stems w then return false
  else
    let two ← isTypeTwo c stems w
    return !two

/-- Five letters worth at most 5 each, the first or the last worth 4 or 5. -/
def isHighFive (c : Classifier) (w : Word) : Checked Bool :=
  if w.length ≠ 5 then return false
  else do
    match ← w.mapM (letterValue c.bag.tables) with
    | [a, b, d, e, f] => return [a, b, d, e, f].all (· ≤ 5) && (4 ≤ a || 4 ≤ f)
    | _ => return false

/-- A word in upper case belongs to the set. -/
def belongs (c : Classifier) (v : Vocabulary) (stems : StemIndex) (set : StudySet) (w : Word) :
    Checked Bool :=
  match set with
  | .hookWords => do
    if ← isFrontHook v w then return true else isBackHook v w
  | .frontHooks => isFrontHook v w
  | .backHooks => isBackHook v w
  | .highFives => isHighFive c w
  | .typeOneSevens => if w.length = 7 then isTypeOne stems w else return false
  | .typeOneEights => if w.length = 8 then isTypeOne stems w else return false
  | .typeTwoSevens => if w.length = 7 then isTypeTwo c stems w else return false
  | .typeTwoEights => if w.length = 8 then isTypeTwo c stems w else return false
  | .typeThreeSevens => if w.length = 7 then isTypeThree c stems c.leastSeven w else return false
  | .typeThreeEights => if w.length = 8 then isTypeThree c stems c.leastEight w else return false
  | .eightsFromSevenLetterStems => if w.length = 8 then oneShort stems w else return false

/-- The word belongs to the set. -/
def member (c : Classifier) (v : Vocabulary) (stems : StemIndex) (set : StudySet) (w : Word) :
    Checked Bool :=
  if !w.isAscii then return false else belongs c v stems set w.upper

/-! ## §2 Hooks -/

section Words

variable {w : Word} (hascii : w.isAscii = true)

include hascii in
theorem isFrontHook_eq (v : Vocabulary) : isFrontHook v w = pure (v.isFrontHook w) := by
  unfold isFrontHook Vocabulary.isFrontHook
  by_cases hlength : 1 < w.length
  · rw [if_pos hlength, sliceText_eq hascii (Nat.le_of_lt hlength) (Nat.le_refl _), pure_bind,
      List.take_length, List.drop_one, decide_eq_true hlength, Bool.true_and]
  · rw [if_neg hlength, decide_eq_false hlength, Bool.false_and]

include hascii in
theorem isBackHook_eq (v : Vocabulary) : isBackHook v w = pure (v.isBackHook w) := by
  unfold isBackHook Vocabulary.isBackHook
  by_cases hlength : 1 < w.length
  · rw [if_pos hlength, sliceText_eq hascii (Nat.zero_le _) (Nat.sub_le _ _), pure_bind,
      List.drop_zero, List.dropLast_eq_take, decide_eq_true hlength, Bool.true_and]
  · rw [if_neg hlength, decide_eq_false hlength, Bool.false_and]

/-! ## §3 Stems -/

include hascii in
/-- The alphagram of an ASCII text is one. -/
theorem isAscii_alphagram : w.alphagram.isAscii = true := by
  have hupper : ∀ b ∈ w.upper, b < 0x80 := fun b hb =>
    of_decide_eq_true (List.all_eq_true.mp ((Word.isAscii_upper w).trans hascii) b hb)
  have hsorted : ∀ b ∈ Word.sorted w.upper, b < 0x80 := fun b hb =>
    hupper b ((Word.sorted_perm w.upper).mem_iff.mp hb)
  rw [Word.alphagram_eq_flatMap, Word.flatMap_bytesAlone hsorted]
  exact List.all_eq_true.mpr fun b hb => decide_eq_true (hsorted b hb)

include hascii in
theorem deletionAt_eq {place : Nat} (hplace : place < w.length) :
    deletionAt w place = pure (w.eraseIdx place) := by
  rw [deletionAt, sliceText_eq hascii (Nat.zero_le _) (Nat.le_of_lt hplace),
    sliceText_eq hascii hplace (Nat.le_refl _), pure_bind, pure_bind, List.take_length,
    List.drop_zero, List.eraseIdx_eq_take_drop_succ]

include hascii in
theorem oneShort_eq (stems : StemIndex) : oneShort stems w = pure (stems.oneShort w) := by
  unfold oneShort StemIndex.oneShort
  cases hlength : stems.hasLength (w.length - 1) with
  | false =>
    -- Where there is no list of that length, no stem is found.
    have hnone : (StemIndex.deletions w.alphagram).any (stems.contains (w.length - 1)) = false := by
      refine List.any_eq_false.mpr fun agram _ => ?_
      rw [StemIndex.contains, Std.TreeMap.getElem?_eq_none_of_contains_eq_false hlength]
      exact Bool.false_ne_true
    rw [hnone]
    rfl
  | true =>
    rw [StemIndex.deletions_eq_map, List.any_map]
    refine anyM_eq fun place hplace => ?_
    rw [deletionAt_eq (isAscii_alphagram hascii) (List.mem_range.mp hplace), pure_bind]
    rfl

theorem twoShort_eq (stems : StemIndex) (w : Word) : twoShort stems w = pure (stems.twoShort w) :=
  anyM_eq fun stem _ => fitsIn_eq stem w

/-! ## §4 Sets -/

include hascii in
theorem isTypeOne_eq (stems : StemIndex) :
    isTypeOne stems w = pure (Classifier.isTypeOne stems w) := by
  unfold isTypeOne Classifier.isTypeOne
  rw [oneShort_eq hascii, twoShort_eq]
  by_cases hseven : w.length = 7
  · simp [hseven]
  · rw [if_neg hseven, beq_eq_false_iff_ne.mpr hseven]
    by_cases height : w.length = 8
    · simp [height]
    · rw [if_neg height, beq_eq_false_iff_ne.mpr height]
      rfl

include hascii in
theorem isTypeTwo_eq (c : Classifier) (stems : StemIndex) :
    isTypeTwo c stems w = pure (c.isTypeTwo stems w) := by
  rw [isTypeTwo, fitsIn_eq, pure_bind, isTypeOne_eq hascii, pure_bind, Classifier.isTypeTwo]
  cases w.fitsIn c.pool <;> rfl

include hascii in
theorem isTypeThree_eq (c : Classifier) (stems : StemIndex) (least : Nat) :
    isTypeThree c stems least w = pure (c.isTypeThree stems least w) := by
  rw [isTypeThree, draws_eq, pure_bind, isTypeOne_eq hascii, pure_bind, isTypeTwo_eq hascii,
    pure_bind, Classifier.isTypeThree]
  by_cases hleast : c.bag.draws w < least
  · rw [if_pos hleast, decide_eq_false (Nat.not_le.mpr hleast)]
    rfl
  · rw [if_neg hleast, decide_eq_true (Nat.le_of_not_lt hleast)]
    cases Classifier.isTypeOne stems w <;> rfl

theorem isHighFive_eq (c : Classifier) (w : Word) : isHighFive c w = pure (c.isHighFive w) := by
  unfold isHighFive Classifier.isHighFive
  have hlength : (w.map c.bag.letterValue).length = w.length := List.length_map _
  rw [mapM_eq fun b _ => letterValue_eq c.bag b, pure_bind]
  generalize w.map c.bag.letterValue = values at hlength
  -- With five letters the five places that are read are there.
  by_cases hfive : w.length = 5
  · rw [if_neg (not_not_intro hfive)]
    match values, hlength.trans hfive with
    | [_, _, _, _, _], _ => rfl
  · rw [if_pos hfive]
    split
    · exact absurd hlength.symm hfive
    · rfl

include hascii in
theorem belongs_eq (c : Classifier) (v : Vocabulary) (stems : StemIndex) (set : StudySet) :
    belongs c v stems set w.upper = pure (c.member v stems set w) := by
  have hupper : w.upper.isAscii = true := (Word.isAscii_upper w).trans hascii
  -- All but four sets are of words of one length, which is tested before anything else.
  have hguard (n : Nat) {test : Checked Bool} {result : Bool} (h : test = pure result) :
      (if w.upper.length = n then test else return false) = pure (w.upper.length == n && result) := by
    by_cases hlength : w.upper.length = n
    · rw [if_pos hlength, h, beq_iff_eq.mpr hlength, Bool.true_and]
    · rw [if_neg hlength, beq_eq_false_iff_ne.mpr hlength, Bool.false_and]
  unfold Classifier.member
  rw [hascii, Bool.true_and]
  cases set with
  | hookWords =>
    rw [belongs, isFrontHook_eq hupper, pure_bind, isBackHook_eq hupper]
    dsimp only
    cases v.isFrontHook w.upper <;> rfl
  | frontHooks => exact isFrontHook_eq hupper v
  | backHooks => exact isBackHook_eq hupper v
  | highFives => exact isHighFive_eq c w.upper
  | typeOneSevens => exact hguard 7 (isTypeOne_eq hupper stems)
  | typeOneEights => exact hguard 8 (isTypeOne_eq hupper stems)
  | typeTwoSevens => exact hguard 7 (isTypeTwo_eq hupper c stems)
  | typeTwoEights => exact hguard 8 (isTypeTwo_eq hupper c stems)
  | typeThreeSevens => exact hguard 7 (isTypeThree_eq hupper c stems c.leastSeven)
  | typeThreeEights => exact hguard 8 (isTypeThree_eq hupper c stems c.leastEight)
  | eightsFromSevenLetterStems => exact hguard 8 (oneShort_eq hupper stems)

end Words

/-- **A set is tested** without a fault, whatever the bytes of the word are. -/
theorem member_eq (c : Classifier) (v : Vocabulary) (stems : StemIndex) (set : StudySet) (w : Word) :
    member c v stems set w = pure (c.member v stems set w) := by
  unfold member
  cases hascii : w.isAscii with
  | false =>
    unfold Classifier.member
    rw [hascii, Bool.false_and]
    rfl
  | true => exact belongs_eq hascii c v stems set

end Checked

end WordStudy
