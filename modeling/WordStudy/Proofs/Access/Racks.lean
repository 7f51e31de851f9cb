import WordStudy.Match.Rack
import WordStudy.Proofs.Access.Tokens
import WordStudy.Proofs.Word.Capitals

/-!
# Checked spelling with racks

The tiles that are left are numbers in a table of letters, a number of blanks, and for each class one
bit of a word of 32 bits. A rack has at most 32 classes, so that each of them has its bit. A letter is
looked up without a test: **a rack may be asked for capital letters only**, and these make no fault.
-/

namespace WordStudy

instance : DecidableEq LetterNumbers := fun counts others =>
  decidable_of_iff (∀ place, counts place = others place) funext_iff.symm

/-- The tiles that are left, as numbers and bits. -/
structure TileWord where
  counts : LetterNumbers
  blanks : Nat
  classesLeft : BitVec 32
  deriving DecidableEq

namespace Checked

/-! ## §1 Reading and spelling -/

/-- Count the letter tiles, `none` if there are too many of one letter. -/
def countTiles (counts : LetterNumbers) : List Token → Checked (Option LetterNumbers)
  | [] => return some counts
  | .letter l :: tokens => do
    let place ← letterPlace l
    if counts place < Rack.maxAlike then
      countTiles (Function.update counts place (counts place + 1)) tokens
    else return none
  | _ :: tokens => countTiles counts tokens

/-- The rack that a text writes. -/
def readRack (text : String) : Checked (Option Rack) := do
  match ← readTokens (Word.ofText text) 0 with
  | none => return none
  | some tokens =>
    match ← countTiles (fun _ => 0) tokens with
    | none => return none
    | some _ =>
      let r := Rack.ofTokens tokens
      return if Rack.maxAlike < r.blanks || Rack.maxClasses < r.classes.length ||
        (r.size = 0 && !r.unlimited) then none else some r

/-- All tiles of a rack. -/
def startTiles (r : Rack) : Checked TileWord := do
  let classesLeft ←
    if r.classes.length = 32 then pure (BitVec.allOnes 32)
    else do
      let behind ← oneBit 32 r.classes.length
      pure (behind - 1)
  return ⟨fun place => r.letters.count (letterAt place), r.blanks, classesLeft⟩

/-- The same class is left in front of a place. -/
def alikeBefore (classes : List LetterSet) (left : BitVec 32) (set : LetterSet) (place : Nat) :
    Checked Bool :=
  (classes.take place).zipIdx.anyM fun other => do
    let isLeft ← hasBit left other.2
    return isLeft && other.1 == set

/-- The class is left and has the byte, and it is the first one of those alike. -/
def usableClass (classes : List LetterSet) (left : BitVec 32) (b : UInt8) (c : LetterSet × Nat) :
    Checked Bool := do
  if !(← hasBit left c.2) then return false
  else if !(← inSet c.1.word b) then return false
  else do
    let again ← alikeBefore classes left c.1 c.2
    return !again

/-- The classes to take a byte from, with their places. -/
def usableClasses (classes : List LetterSet) (left : BitVec 32) (b : UInt8) :
    Checked (List (LetterSet × Nat)) := filter (usableClass classes left b) classes.zipIdx

/-- The ways to go on with a tile for a letter, whose place in the table is known. -/
def takeTile (r : Rack) (place : Fin 26) (b : UInt8) (tiles : TileWord) : Checked (List TileWord) :=
  if 0 < tiles.counts place then
    return [{ tiles with counts := Function.update tiles.counts place (tiles.counts place - 1) }]
  else do
    match ← usableClasses r.classes tiles.classesLeft b with
    | [] =>
      return if 0 < tiles.blanks then [{ tiles with blanks := tiles.blanks - 1 }]
        else if r.unlimited then [tiles]
        else []
    | usable => usable.mapM fun c => do
      let bit ← oneBit 32 c.2
      return { tiles with classesLeft := tiles.classesLeft &&& ~~~bit }

/-- The remaining tiles of all ways to spell one letter more, none if there is no way. -/
def stepRack (r : Rack) (ways : List TileWord) (b : UInt8) : Checked (List TileWord) := do
  let place ← letterPlace b
  let next ← ways.mapM (takeTile r place b)
  return next.flatten.eraseDups

/-- All tiles are used. -/
def allUsed (tiles : TileWord) : Bool :=
  tiles.blanks == 0 && tiles.classesLeft == 0 && (List.finRange 26).all (tiles.counts · == 0)

/-- A word of `length` letters, spelled in these ways, uses the rack as the mode asks. -/
def acceptsRack (mode : RackMode) (ways : List TileWord) (length : Nat) : Bool :=
  if length = 0 || ways.isEmpty then false
  else
    match mode with
    | .anagram => ways.any allUsed
    | .subanagram => true
    | .consist min max => min ≤ length && length ≤ max

/-- The remaining tiles of all ways to spell the rest of a word. -/
def spellTiles (r : Rack) (ways : List TileWord) : Word → Checked (List TileWord)
  | [] => return ways
  | b :: w => do
    let next ← stepRack r ways b
    if next.isEmpty then return [] else spellTiles r next w

/-- The rack spells the word in the way that the mode asks. -/
def spellsRack (r : Rack) (mode : RackMode) (w : Word) : Checked Bool := do
  let start ← startTiles r
  let ways ← spellTiles r [start] w
  return acceptsRack mode ways w.length

/-! ## §2 Reading -/

theorem isUpper_letterOf {c : Char} (h : c.isAlpha = true) : isUpper (Token.letterOf c) = true := by
  have hall : ∀ c ∈ asciiChars, c.isAlpha = true → isUpper (Token.letterOf c) = true :=
    forall_mem_of_all (by decide +kernel)
  exact hall c (mem_asciiChars (lt_of_isAlpha h)) h

theorem isUpper_of_ofSign {c : Char} {l : UInt8} (h : Token.ofSign c = some (.letter l)) :
    isUpper l = true := by
  unfold Token.ofSign at h
  split at h
  · next halpha =>
    cases h
    exact isUpper_letterOf halpha
  split at h
  · cases h
  split at h <;> cases h

theorem classOf_ne_letter {body : List Char} {l : UInt8} : Token.classOf body ≠ some (.letter l) := by
  intro h
  by_cases hcaret : body.head? = some '^'
  · obtain ⟨letters, rfl⟩ := List.head?_eq_some_iff.mp hcaret
    rw [classOf_caret, letterClass] at h
    split at h <;> cases h
  · rw [classOf_of_ne hcaret, letterClass] at h
    split at h <;> cases h

/-- **Letter tokens** are capital letters. -/
theorem isUpper_of_mem_scan {body : Option (List Char)} {cs : List Char} {tokens : List Token}
    (h : Token.scan body cs = some tokens) {l : UInt8} (hl : .letter l ∈ tokens) :
    isUpper l = true := by
  -- A letter comes from a sign of its own; a class gives no letter.
  fun_induction Token.scan body cs generalizing tokens with
  | case1 => cases h; cases hl
  | case2 => cases h
  | case3 rest ih => exact ih h hl
  | case4 c rest hc token more hmore hsign ih =>
    cases h
    rcases List.mem_cons.mp hl with rfl | hl
    · exact isUpper_of_ofSign hsign
    · exact ih hmore hl
  | case5 => cases h
  | case6 body rest token more hmore hclass ih =>
    cases h
    rcases List.mem_cons.mp hl with rfl | hl
    · exact absurd hclass classOf_ne_letter
    · exact ih hmore hl
  | case7 => cases h
  | case8 body c rest hc ih => exact ih h hl

/-- **Counting** makes no fault for capital letters, and finds whether there are too many alike. -/
theorem countTiles_eq {tokens : List Token} (hupper : ∀ l, .letter l ∈ tokens → isUpper l = true)
    {counts : LetterNumbers} (hcounts : ∀ place, counts place ≤ Rack.maxAlike) :
    countTiles counts tokens = pure
      (if ∀ place, counts place + (Rack.lettersOf tokens).count (letterAt place) ≤ Rack.maxAlike then
        some fun place => counts place + (Rack.lettersOf tokens).count (letterAt place)
      else none) := by
  induction tokens generalizing counts with
  | nil =>
    have hnone (place : Fin 26) : (Rack.lettersOf []).count (letterAt place) = 0 := rfl
    simp only [hnone, Nat.add_zero]
    rw [if_pos hcounts]
    rfl
  | cons token tokens ih =>
    have hrest : ∀ l, .letter l ∈ tokens → isUpper l = true := fun l hl => hupper l (by simp [hl])
    cases token with
    | letter l =>
      have hl := hupper l (by simp)
      have hmore (place : Fin 26) : (Rack.lettersOf (.letter l :: tokens)).count (letterAt place) =
          (Rack.lettersOf tokens).count (letterAt place) +
            if place = ⟨LetterSet.place l, LetterSet.place_lt hl⟩ then 1 else 0 := by
        rw [← if_congr (eq_letterAt_iff hl place) rfl rfl, ← if_congr beq_iff_eq rfl rfl]
        exact List.count_cons
      rw [countTiles, letterPlace_eq hl, pure_bind]
      generalize hplace : (⟨LetterSet.place l, LetterSet.place_lt hl⟩ : Fin 26) = here at hmore
      have hupdate (place : Fin 26) : Function.update counts here (counts here + 1) place =
          counts place + if place = here then 1 else 0 := by
        rw [Function.update_apply]
        split
        · next h => rw [h]
        · rfl
      have hsum (place : Fin 26) : Function.update counts here (counts here + 1) place +
            (Rack.lettersOf tokens).count (letterAt place) =
          counts place + (Rack.lettersOf (.letter l :: tokens)).count (letterAt place) := by
        rw [hupdate, hmore]
        omega
      -- The limit is passed at the first tile too many, and more tiles cannot undo that.
      by_cases hlimit : counts here < Rack.maxAlike
      · rw [if_pos hlimit, ih hrest]
        · simp only [hsum]
        · intro place
          have hplace := hcounts place
          rw [hupdate]
          split
          · next h => rw [h]; exact hlimit
          · exact hplace
      · have hover : ¬∀ place, counts place +
            (Rack.lettersOf (.letter l :: tokens)).count (letterAt place) ≤ Rack.maxAlike := by
          intro h
          have hhere := h here
          rw [hmore, if_pos rfl] at hhere
          omega
        rw [if_neg hlimit, if_neg hover]
    | any => exact ih hrest hcounts
    | star => exact ih hrest hcounts
    | oneOf set => exact ih hrest hcounts

/-- No letter is there too often exactly if none is in a table of them. -/
theorem withinLimits_eq (r : Rack) : r.withinLimits =
    (decide (∀ place, r.letters.count (letterAt place) ≤ Rack.maxAlike) &&
      !(Rack.maxAlike < r.blanks || Rack.maxClasses < r.classes.length)) := by
  have hletters : (alphabet.all fun l => decide (r.letters.count l ≤ Rack.maxAlike)) =
      decide (∀ place, r.letters.count (letterAt place) ≤ Rack.maxAlike) := by
    rw [Bool.eq_iff_iff, alphabet_eq_map]
    simp
  rw [Rack.withinLimits, hletters, Bool.and_assoc]
  simp only [Bool.not_or, ← decide_not, Nat.not_lt]

/-- **Reading a rack** makes no fault. -/
theorem readRack_eq (text : String) : readRack text = pure (Rack.read text) := by
  rw [readRack, readTokens_eq, pure_bind, Rack.read]
  cases hread : Token.read text with
  | none => rfl
  | some tokens =>
    -- The counts are those of the letters, from zero on.
    have hcount := countTiles_eq (fun l hl => isUpper_of_mem_scan hread hl)
      (fun _ => Nat.zero_le Rack.maxAlike)
    have hletters : Rack.lettersOf tokens = (Rack.ofTokens tokens).letters := rfl
    simp only [Nat.zero_add, hletters] at hcount
    dsimp only
    rw [hcount, pure_bind, withinLimits_eq]
    by_cases halike : ∀ place, (Rack.ofTokens tokens).letters.count (letterAt place) ≤ Rack.maxAlike
    · rw [if_pos halike, decide_eq_true halike, Bool.true_and, Bool.not_not]
    · rw [if_neg halike, decide_eq_false halike, Bool.false_and, Bool.not_false, Bool.true_or]
      rfl

end Checked

/-- The letters of a rack have places in a table, and its classes have bits of a word. -/
structure Rack.FitsTables (r : Rack) : Prop where
  letters : Word.InCapitals r.letters
  classes : r.classes.length ≤ Rack.maxClasses

namespace Checked

/-- What is read fits into the tables. -/
theorem fitsTables_of_read {text : String} {r : Rack} (h : Rack.read text = some r) :
    r.FitsTables := by
  unfold Rack.read at h
  split at h
  · cases h
  · next tokens hread =>
    dsimp only at h
    split at h
    · cases h
    · next hlimits =>
      cases h
      simp only [Rack.withinLimits, Bool.or_eq_true, Bool.not_eq_true', not_or, Bool.not_eq_false,
        Bool.and_eq_true, decide_eq_true_eq] at hlimits
      refine ⟨fun b hb => ?_, hlimits.1.2⟩
      -- The letters kept are the tokens that are letters.
      obtain ⟨token, htoken, hletter⟩ := List.mem_filterMap.mp hb
      cases token with
      | letter l =>
        obtain rfl : l = b := Option.some.inj hletter
        exact isUpper_of_mem_scan hread htoken
      | _ => cases hletter

/-! ## §3 Classes as bits -/

/-- Less one, a word with one bit has all bits below. -/
theorem getLsbD_twoPow_sub_one {width n : Nat} (h : n < width) (i : Nat) :
    (BitVec.twoPow width n - 1).getLsbD i = decide (i < n) := by
  have hpos : 0 < 2 ^ n := Nat.two_pow_pos n
  have hlt : 2 ^ n < 2 ^ width := Nat.pow_lt_pow_right (by decide) h
  have hone : (1 : BitVec width).toNat = 1 :=
    (BitVec.toNat_ofNat 1 width).trans (Nat.mod_eq_of_lt (by omega))
  have hle : 1 ≤ BitVec.twoPow width n := by
    rw [BitVec.le_def, BitVec.toNat_twoPow, Nat.mod_eq_of_lt hlt, hone]
    exact hpos
  have hnat : (BitVec.twoPow width n - 1).toNat = 2 ^ n - 1 := by
    rw [BitVec.toNat_sub_of_le hle, BitVec.toNat_twoPow, Nat.mod_eq_of_lt hlt, hone]
  rw [← BitVec.testBit_toNat, hnat, Nat.testBit_two_pow_sub_one]

/-- The classes whose bits are set, the first one having the bit `first`. -/
def leftClasses (left : BitVec 32) : List LetterSet → Nat → List LetterSet
  | [], _ => []
  | set :: classes, first =>
    if left.getLsbD first then set :: leftClasses left classes (first + 1)
    else leftClasses left classes (first + 1)

section Classes

variable {classes : List LetterSet} {left : BitVec 32} {set : LetterSet} {first place : Nat}

theorem mem_leftClasses : set ∈ leftClasses left classes first ↔
    ∃ i, classes[i]? = some set ∧ left.getLsbD (first + i) = true := by
  induction classes generalizing first with
  | nil => simp [leftClasses]
  | cons other classes ih =>
    -- A class that is left is the first one, or one of the others a bit further on.
    have hcases : (∃ i, (other :: classes)[i]? = some set ∧ left.getLsbD (first + i) = true) ↔
        (other = set ∧ left.getLsbD first = true) ∨
          ∃ i, classes[i]? = some set ∧ left.getLsbD (first + 1 + i) = true := by
      constructor
      · rintro ⟨i, hi, hbit⟩
        cases i with
        | zero => exact .inl ⟨Option.some.inj hi, hbit⟩
        | succ i =>
          rw [Nat.add_comm i, ← Nat.add_assoc] at hbit
          exact .inr ⟨i, hi, hbit⟩
      · rintro (⟨rfl, hbit⟩ | ⟨i, hi, hbit⟩)
        · exact ⟨0, rfl, hbit⟩
        · rw [Nat.add_assoc, Nat.add_comm 1] at hbit
          exact ⟨i + 1, hi, hbit⟩
    rw [hcases, leftClasses]
    split
    · next hbit => simp [ih, hbit, @eq_comm _ set other]
    · next hbit => simp [ih, hbit]

theorem leftClasses_append (classes others : List LetterSet) :
    leftClasses left (classes ++ others) first =
      leftClasses left classes first ++ leftClasses left others (first + classes.length) := by
  induction classes generalizing first with
  | nil => rfl
  | cons set classes ih =>
    rw [List.cons_append, leftClasses, leftClasses, ih, List.length_cons, Nat.add_assoc,
      Nat.add_comm 1]
    split <;> rfl

theorem leftClasses_congr {bits : BitVec 32}
    (h : ∀ i < classes.length, bits.getLsbD (first + i) = left.getLsbD (first + i)) :
    leftClasses bits classes first = leftClasses left classes first := by
  induction classes generalizing first with
  | nil => rfl
  | cons set classes ih =>
    have hrest : leftClasses bits classes (first + 1) = leftClasses left classes (first + 1) := by
      refine ih fun i hi => ?_
      have hnext := h (i + 1) (Nat.succ_lt_succ hi)
      rwa [Nat.add_comm i, ← Nat.add_assoc] at hnext
    have hhere : bits.getLsbD first = left.getLsbD first := h 0 (Nat.succ_pos _)
    rw [leftClasses, leftClasses, hrest, hhere]

/-- All classes are left if all their bits are set. -/
theorem leftClasses_of_forall (h : ∀ i < classes.length, left.getLsbD (first + i) = true) :
    leftClasses left classes first = classes := by
  induction classes generalizing first with
  | nil => rfl
  | cons set classes ih =>
    have hrest : leftClasses left classes (first + 1) = classes := by
      refine ih fun i hi => ?_
      have hnext := h (i + 1) (Nat.succ_lt_succ hi)
      rwa [Nat.add_comm i, ← Nat.add_assoc] at hnext
    have hhere : left.getLsbD first = true := h 0 (Nat.succ_pos _)
    rw [leftClasses, hrest, if_pos hhere]

/-- The class at a place is left, and none in front of it that is left is the same. -/
structure IsFirstLeft (left : BitVec 32) (classes : List LetterSet) (set : LetterSet) (place : Nat) :
    Prop where
  at_place : classes[place]? = some set
  bit : left.getLsbD place = true
  first : ∀ before < place, left.getLsbD before = true → classes[before]? ≠ some set

/-- Of the classes alike that are left, one is the first. -/
theorem exists_isFirstLeft (h : set ∈ leftClasses left classes 0) :
    ∃ place, IsFirstLeft left classes set place := by
  obtain ⟨place, hset, hbit⟩ := mem_leftClasses.mp h
  rw [Nat.zero_add] at hbit
  -- Any other one in front is nearer to the first.
  induction place using Nat.strongRecOn with
  | ind place ih =>
    by_cases hfirst : ∃ before < place, left.getLsbD before = true ∧ classes[before]? = some set
    · obtain ⟨before, hlt, hbit, hset⟩ := hfirst
      exact ih before hlt hset hbit
    · exact ⟨place, hset, hbit, fun before hlt hbit hset => hfirst ⟨before, hlt, hbit, hset⟩⟩

/-- A word without one of its bits. -/
theorem getLsbD_clear (left : BitVec 32) (place i : Nat) :
    (left &&& ~~~BitVec.twoPow 32 place).getLsbD i = (left.getLsbD i && decide (i ≠ place)) := by
  by_cases hi : i < 32
  · simp [hi, eq_comm]
  · simp [BitVec.getLsbD_of_ge left i (Nat.le_of_not_lt hi)]

/-- A class stands behind those in front of it, if it is left, and in front of the others. -/
theorem leftClasses_split (left : BitVec 32) (h : classes[place]? = some set) :
    leftClasses left classes 0 = leftClasses left (classes.take place) 0 ++
      if left.getLsbD place then set :: leftClasses left (classes.drop (place + 1)) (place + 1)
      else leftClasses left (classes.drop (place + 1)) (place + 1) := by
  obtain ⟨hlt, hget⟩ := List.getElem?_eq_some_iff.mp h
  have hlength : (classes.take place).length = place := List.length_take_of_le (Nat.le_of_lt hlt)
  have hclasses : classes = classes.take place ++ set :: classes.drop (place + 1) := by
    rw [← hget, ← List.drop_eq_getElem_cons hlt, List.take_append_drop]
  conv => lhs; rw [hclasses]
  rw [leftClasses_append, hlength, Nat.zero_add, leftClasses]

/-- None of the classes in front is the same and left. -/
theorem IsFirstLeft.notMem_take (h : IsFirstLeft left classes set place) :
    set ∉ leftClasses left (classes.take place) 0 := by
  rw [mem_leftClasses]
  rintro ⟨i, hi, hbit⟩
  obtain ⟨hbefore, hi⟩ : i < place ∧ classes[i]? = some set := by
    simpa [List.getElem?_take] using hi
  rw [Nat.zero_add] at hbit
  exact h.first i hbefore hbit hi

/-- **Clearing the bit** of the first class alike takes the class away. -/
theorem IsFirstLeft.leftClasses_clear (h : IsFirstLeft left classes set place) :
    leftClasses (left &&& ~~~BitVec.twoPow 32 place) classes 0 =
      (leftClasses left classes 0).erase set := by
  -- The bit cleared is at one place, so the classes before and behind it stay.
  have hfront : leftClasses (left &&& ~~~BitVec.twoPow 32 place) (classes.take place) 0 =
      leftClasses left (classes.take place) 0 := by
    refine leftClasses_congr fun i hi => ?_
    have hlt : i < place := Nat.lt_of_lt_of_le hi (List.length_take_le _ _)
    have hne : 0 + i ≠ place := by omega
    rw [getLsbD_clear, decide_eq_true hne, Bool.and_true]
  have hback : leftClasses (left &&& ~~~BitVec.twoPow 32 place) (classes.drop (place + 1)) (place + 1) =
      leftClasses left (classes.drop (place + 1)) (place + 1) := by
    refine leftClasses_congr fun i _ => ?_
    have hne : place + 1 + i ≠ place := by omega
    rw [getLsbD_clear, decide_eq_true hne, Bool.and_true]
  have hcleared : (left &&& ~~~BitVec.twoPow 32 place).getLsbD place = false := by
    rw [getLsbD_clear, decide_eq_false (not_not_intro rfl), Bool.and_false]
  rw [leftClasses_split _ h.at_place, leftClasses_split left h.at_place, hfront, hback, hcleared,
    h.bit, if_neg Bool.false_ne_true, if_pos rfl, List.erase_append_right _ h.notMem_take,
    List.erase_cons_head]

theorem alikeBefore_eq (hplace : place ≤ 32) : alikeBefore classes left set place =
    pure (decide (∃ before < place, left.getLsbD before = true ∧ classes[before]? = some set)) := by
  -- Every place that is looked at is within the mask, so no bit is read outside it.
  have hany : alikeBefore classes left set place = pure ((classes.take place).zipIdx.any
      fun other => left.getLsbD other.2 && other.1 == set) := by
    refine anyM_eq fun other hother => ?_
    have hbefore := List.snd_lt_of_mem_zipIdx hother
    rw [List.length_take] at hbefore
    rw [hasBit_eq _ (by omega), pure_bind]
  rw [hany]
  congr 1
  rw [Bool.eq_iff_iff, List.any_eq_true, decide_eq_true_iff]
  constructor
  · rintro ⟨⟨other, before⟩, hmem, h⟩
    obtain ⟨hlt, hother⟩ : before < place ∧ classes[before]? = some other := by
      simpa [List.mk_mem_zipIdx_iff_getElem?, List.getElem?_take] using hmem
    obtain ⟨hbit, rfl⟩ : left.getLsbD before = true ∧ other = set := by simpa using h
    exact ⟨before, hlt, hbit, hother⟩
  · rintro ⟨before, hlt, hbit, hset⟩
    refine ⟨(set, before), ?_, by simp [hbit]⟩
    simpa [List.mk_mem_zipIdx_iff_getElem?, List.getElem?_take, hlt] using hset

/-- **The classes** to take a letter from are the first ones alike. -/
theorem usableClasses_eq (left : BitVec 32) (hclasses : classes.length ≤ 32) (b : UInt8) :
    ∃ usable, usableClasses classes left b = pure usable ∧
      ∀ set place, (set, place) ∈ usable ↔
        IsFirstLeft left classes set place ∧ set.contains b = true := by
  -- A class is usable if it is left, takes the letter and has none alike before it.
  have hfilter := filter_eq (l := classes.zipIdx) (p := usableClass classes left b)
    (q := fun c => left.getLsbD c.2 && c.1.contains b && !decide (∃ before < c.2,
      left.getLsbD before = true ∧ classes[before]? = some c.1)) fun c hc => by
    have hplace : c.2 < classes.length := List.snd_lt_of_mem_zipIdx hc
    rw [usableClass, hasBit_eq _ (by omega), inSet_eq, alikeBefore_eq (by omega)]
    simp only [pure_bind]
    cases left.getLsbD c.2 <;> cases c.1.contains b <;> rfl
  refine ⟨_, hfilter, fun set place => ?_⟩
  rw [List.mem_filter, List.mk_mem_zipIdx_iff_getElem?]
  simp only [Bool.and_eq_true, Bool.not_eq_true', decide_eq_false_iff_not]
  constructor
  · rintro ⟨hset, ⟨hbit, hb⟩, hfirst⟩
    exact ⟨⟨hset, hbit, fun before hlt hbit hset => hfirst ⟨before, hlt, hbit, hset⟩⟩, hb⟩
  · rintro ⟨h, hb⟩
    exact ⟨h.at_place, ⟨h.bit, hb⟩, fun ⟨before, hlt, hbit, hset⟩ => h.first before hlt hbit hset⟩

end Classes

/-! ## §4 Spelling -/

/-- The tiles are as many of each letter, as many blanks, and the classes whose bits are set. -/
structure ShowsTiles (r : Rack) (word : TileWord) (tiles : Tiles) : Prop where
  letters : Word.InCapitals tiles.letters
  counts : ∀ place, word.counts place = tiles.letters.count (letterAt place)
  blanks : word.blanks = tiles.blanks
  classes : leftClasses word.classesLeft r.classes 0 = tiles.classes
  bounded : ∀ place, r.classes.length ≤ place → word.classesLeft.getLsbD place = false

/-- The tiles that are left in some ways are shown by words, and every word shows some. -/
structure ShowsWays (r : Rack) (words : List TileWord) (ways : List Tiles) : Prop where
  sound : ∀ word ∈ words, ∃ tiles ∈ ways, ShowsTiles r word tiles
  complete : ∀ tiles ∈ ways, ∃ word ∈ words, ShowsTiles r word tiles

namespace ShowsTiles

variable {r : Rack} {word : TileWord} {tiles : Tiles} (h : ShowsTiles r word tiles)

include h in
theorem count_eq {b : UInt8} (hb : isUpper b = true) :
    word.counts ⟨LetterSet.place b, LetterSet.place_lt hb⟩ = tiles.letters.count b := by
  rw [h.counts, letterAt_place hb]

include h in
theorem counts_eq_zero_iff : (∀ place, word.counts place = 0) ↔ tiles.letters = [] := by
  constructor
  · intro hzero
    rw [List.eq_nil_iff_forall_not_mem]
    intro b hb
    have hcount := h.count_eq (h.letters b hb)
    rw [hzero] at hcount
    exact Nat.ne_of_lt (List.count_pos_iff.mpr hb) hcount
  · intro hnil place
    rw [h.counts, hnil, List.count_nil]

include h in
theorem classesLeft_eq_zero_iff : word.classesLeft = 0 ↔ tiles.classes = [] := by
  rw [← h.classes, List.eq_nil_iff_forall_not_mem]
  constructor
  · intro hzero set hset
    obtain ⟨i, -, hbit⟩ := mem_leftClasses.mp hset
    rw [hzero] at hbit
    simp at hbit
  · intro hnone
    apply BitVec.eq_of_getLsbD_eq
    intro i _
    have hzero : (0 : BitVec 32).getLsbD i = false := BitVec.getLsbD_zero
    rw [hzero, Bool.eq_false_iff]
    intro hbit
    -- Bits that stand for no class are clear.
    have hlt : i < r.classes.length := by
      by_contra hge
      rw [h.bounded i (Nat.le_of_not_lt hge)] at hbit
      exact Bool.false_ne_true hbit
    exact hnone _ (mem_leftClasses.mpr ⟨i, List.getElem?_eq_getElem hlt, by rwa [Nat.zero_add]⟩)

include h in
theorem allUsed_eq : allUsed word = tiles.isEmpty := by
  have hletters := h.counts_eq_zero_iff
  have hclasses := h.classesLeft_eq_zero_iff
  rw [Bool.eq_iff_iff]
  simp only [allUsed, Tiles.isEmpty, h.blanks, Bool.and_eq_true, beq_iff_eq, List.isEmpty_iff,
    List.all_eq_true, List.mem_finRange, true_imp_iff, hletters, hclasses, and_comm, and_left_comm]

include h in
/-- **A letter tile** is spent. -/
theorem useLetter {b : UInt8} (hb : isUpper b = true) {place : Fin 26}
    (hplace : place = ⟨LetterSet.place b, LetterSet.place_lt hb⟩) :
    ShowsTiles r
      { word with counts := Function.update word.counts place (word.counts place - 1) }
      { tiles with letters := tiles.letters.erase b } where
  letters c hc := h.letters c (List.mem_of_mem_erase hc)
  counts other := by
    have hiff := eq_letterAt_iff hb other
    rw [← hplace] at hiff
    show Function.update word.counts place (word.counts place - 1) other =
      (tiles.letters.erase b).count (letterAt other)
    rw [Function.update_apply, List.count_erase, ← h.counts other]
    -- Only the count at the letter's own place goes down.
    by_cases hother : other = place
    · rw [if_pos hother, if_pos (beq_iff_eq.mpr (hiff.mpr hother)), hother]
    · rw [if_neg hother, if_neg (mt beq_iff_eq.mp (mt hiff.mp hother)), Nat.sub_zero]
  blanks := h.blanks
  classes := h.classes
  bounded := h.bounded

include h in
/-- **A class** is spent. -/
theorem useClass {set : LetterSet} {place : Nat}
    (hfirst : IsFirstLeft word.classesLeft r.classes set place) :
    ShowsTiles r { word with classesLeft := word.classesLeft &&& ~~~BitVec.twoPow 32 place }
      { tiles with classes := tiles.classes.erase set } where
  letters := h.letters
  counts := h.counts
  blanks := h.blanks
  classes := by rw [hfirst.leftClasses_clear, h.classes]
  bounded i hi := by rw [getLsbD_clear, h.bounded i hi, Bool.false_and]

include h in
/-- **The classes alike** are spent in one way each, and every bit is reached by its shift. -/
theorem useClasses {sets : List LetterSet} {usable : List (LetterSet × Nat)}
    (hfirst : ∀ c ∈ usable, IsFirstLeft word.classesLeft r.classes c.1 c.2)
    (hsets : ∀ set, set ∈ sets ↔ ∃ place, (set, place) ∈ usable) :
    ∃ next, (usable.mapM fun c => do
        let bit ← oneBit 32 c.2
        return { word with classesLeft := word.classesLeft &&& ~~~bit }) = pure next ∧
      ShowsWays r next (sets.map fun set => { tiles with classes := tiles.classes.erase set }) := by
  have htake : (usable.mapM fun c => do
      let bit ← oneBit 32 c.2
      return { word with classesLeft := word.classesLeft &&& ~~~bit }) =
      pure (usable.map fun c =>
        { word with classesLeft := word.classesLeft &&& ~~~BitVec.twoPow 32 c.2 }) := by
    refine mapM_eq fun c hc => ?_
    -- A bit that is set is one of the word.
    have hplace : c.2 < 32 := BitVec.lt_of_getLsbD (hfirst c hc).bit
    rw [oneBit_eq hplace, pure_bind]
  refine ⟨_, htake, ?_, ?_⟩
  · intro next hnext
    obtain ⟨c, hc, rfl⟩ := List.mem_map.mp hnext
    exact ⟨_, List.mem_map.mpr ⟨c.1, (hsets c.1).mpr ⟨c.2, hc⟩, rfl⟩, h.useClass (hfirst c hc)⟩
  · intro next hnext
    obtain ⟨set, hset, rfl⟩ := List.mem_map.mp hnext
    obtain ⟨place, hplace⟩ := (hsets set).mp hset
    exact ⟨_, List.mem_map.mpr ⟨(set, place), hplace, rfl⟩, h.useClass (hfirst _ hplace)⟩

end ShowsTiles

theorem ShowsWays.isEmpty_iff {r : Rack} {words : List TileWord} {ways : List Tiles}
    (h : ShowsWays r words ways) : words = [] ↔ ways = [] := by
  simp only [List.eq_nil_iff_forall_not_mem]
  constructor
  · intro hnone tiles htiles
    obtain ⟨word, hword, -⟩ := h.complete tiles htiles
    exact hnone word hword
  · intro hnone word hword
    obtain ⟨tiles, htiles, -⟩ := h.sound word hword
    exact hnone tiles htiles

theorem ShowsWays.single {r : Rack} {word : TileWord} {tiles : Tiles}
    (h : ShowsTiles r word tiles) : ShowsWays r [word] [tiles] where
  sound _ hword := ⟨tiles, by simp, List.mem_singleton.mp hword ▸ h⟩
  complete _ htiles := ⟨word, by simp, List.mem_singleton.mp htiles ▸ h⟩

/-- **The ways behind all ways** are shown if those behind each of them are. -/
theorem ShowsWays.step {r : Rack} {words : List TileWord} {ways : List Tiles}
    (h : ShowsWays r words ways) {f : TileWord → Checked (List TileWord)} {g : Tiles → List Tiles}
    (hstep : ∀ word tiles, ShowsTiles r word tiles →
      ∃ next, f word = pure next ∧ ShowsWays r next (g tiles)) :
    ∃ nexts, words.mapM f = pure nexts ∧
      ShowsWays r nexts.flatten.eraseDups (ways.flatMap g).eraseDups := by
  obtain ⟨nexts, hnexts, hmem⟩ := exists_mapM (l := words) (f := f) fun word hword => by
    obtain ⟨tiles, -, hshows⟩ := h.sound word hword
    obtain ⟨next, hnext, -⟩ := hstep word tiles hshows
    exact ⟨next, hnext⟩
  refine ⟨nexts, hnexts, ?_, ?_⟩
  -- Ways that come twice are dropped on both sides, so membership is all that is compared.
  · intro next hnext
    obtain ⟨here, hhere, hnext⟩ := List.mem_flatten.mp (List.mem_eraseDups.mp hnext)
    obtain ⟨word, hword, hresult⟩ := (hmem here).mp hhere
    obtain ⟨tiles, htiles, hshows⟩ := h.sound word hword
    obtain ⟨here', hresult', hnext'⟩ := hstep word tiles hshows
    obtain rfl : here = here' := Except.ok.inj (hresult.symm.trans hresult')
    obtain ⟨more, hmore, hshows⟩ := hnext'.sound next hnext
    exact ⟨more, List.mem_eraseDups.mpr (List.mem_flatMap.mpr ⟨tiles, htiles, hmore⟩), hshows⟩
  · intro more hmore
    obtain ⟨tiles, htiles, hmore⟩ := List.mem_flatMap.mp (List.mem_eraseDups.mp hmore)
    obtain ⟨word, hword, hshows⟩ := h.complete tiles htiles
    obtain ⟨here, hresult, hnext⟩ := hstep word tiles hshows
    obtain ⟨next, hnext, hshows⟩ := hnext.complete more hmore
    exact ⟨next, List.mem_eraseDups.mpr
      (List.mem_flatten.mpr ⟨here, (hmem here).mpr ⟨word, hword, hresult⟩, hnext⟩), hshows⟩

section Racks

variable {r : Rack} (hr : r.FitsTables)

include hr in
/-- **All tiles** are there without a fault. -/
theorem startTiles_eq : ∃ word, startTiles r = pure word ∧ ShowsTiles r word r.start := by
  -- The bits of as many classes are set, and no others.
  obtain ⟨left, hleft, hbits⟩ : ∃ left : BitVec 32,
      startTiles r = pure ⟨fun place => r.letters.count (letterAt place), r.blanks, left⟩ ∧
        ∀ i, left.getLsbD i = decide (i < r.classes.length) := by
    unfold startTiles
    by_cases hfull : r.classes.length = 32
    · rw [if_pos hfull, pure_bind, hfull]
      exact ⟨_, rfl, fun i => BitVec.getLsbD_allOnes⟩
    · have hlt : r.classes.length < 32 := Nat.lt_of_le_of_ne hr.classes hfull
      rw [if_neg hfull, oneBit_eq hlt, pure_bind, pure_bind]
      exact ⟨_, rfl, getLsbD_twoPow_sub_one hlt⟩
  refine ⟨_, hleft, hr.letters, fun _ => rfl, rfl, leftClasses_of_forall fun i hi => ?_, fun i hi => ?_⟩
  · rw [Nat.zero_add, hbits, decide_eq_true hi]
  · rw [hbits, decide_eq_false (Nat.not_lt.mpr hi)]

include hr in
theorem takeTile_eq {word : TileWord} {tiles : Tiles} (h : ShowsTiles r word tiles) {b : UInt8}
    (hb : isUpper b = true) :
    ∃ next, takeTile r ⟨LetterSet.place b, LetterSet.place_lt hb⟩ b word = pure next ∧
      ShowsWays r next (Rack.take r.unlimited tiles b) := by
  have hcount := h.count_eq hb
  unfold takeTile Rack.take
  by_cases hletter : b ∈ tiles.letters
  · have hpos : 0 < word.counts ⟨LetterSet.place b, LetterSet.place_lt hb⟩ := by
      rw [hcount]
      exact List.count_pos_iff.mpr hletter
    rw [if_pos hpos, if_pos (List.contains_iff_mem.mpr hletter)]
    exact ⟨_, rfl, .single (h.useLetter hb rfl)⟩
  · have hzero : ¬0 < word.counts ⟨LetterSet.place b, LetterSet.place_lt hb⟩ := by
      rw [hcount, List.count_pos_iff]
      exact hletter
    rw [if_neg hzero, if_neg (mt List.contains_iff_mem.mp hletter)]
    obtain ⟨usable, husable, hmem⟩ := usableClasses_eq word.classesLeft hr.classes b
    have hsets (set : LetterSet) : set ∈ tiles.classes.eraseDups.filter (·.contains b) ↔
        ∃ place, (set, place) ∈ usable := by
      simp only [hmem]
      rw [List.mem_filter, List.mem_eraseDups, ← h.classes]
      constructor
      · rintro ⟨hset, hb⟩
        obtain ⟨place, hfirst⟩ := exists_isFirstLeft hset
        exact ⟨place, hfirst, hb⟩
      · rintro ⟨place, hfirst, hb⟩
        refine ⟨mem_leftClasses.mpr ⟨place, hfirst.at_place, ?_⟩, hb⟩
        rw [Nat.zero_add, hfirst.bit]
    rw [husable, pure_bind]
    -- Blanks are asked for only if no class has the letter.
    cases usable with
    | nil =>
      have hnone : tiles.classes.eraseDups.filter (·.contains b) = [] :=
        List.eq_nil_iff_forall_not_mem.mpr fun set hset => by
          obtain ⟨place, hplace⟩ := (hsets set).mp hset
          cases hplace
      rw [hnone]
      refine ⟨_, rfl, ?_⟩
      rw [h.blanks]
      by_cases hblank : 0 < tiles.blanks
      · rw [if_pos hblank, if_pos hblank]
        exact .single { h with blanks := rfl }
      · rw [if_neg hblank, if_neg hblank]
        cases r.unlimited with
        | true => exact .single h
        | false => exact ⟨by simp, by simp⟩
    | cons c usable =>
      obtain ⟨set, sets, hmore⟩ : ∃ set sets,
          tiles.classes.eraseDups.filter (·.contains b) = set :: sets :=
        List.exists_cons_of_ne_nil (List.ne_nil_of_mem ((hsets c.1).mpr ⟨c.2, by simp⟩))
      rw [hmore] at hsets ⊢
      exact h.useClasses (fun c hc => ((hmem c.1 c.2).mp hc).1) hsets

include hr in
/-- **A step** with a capital letter makes no fault, and leaves no way if the rack gives up. -/
theorem stepRack_eq {words : List TileWord} {ways : List Tiles} (h : ShowsWays r words ways)
    {b : UInt8} (hb : isUpper b = true) :
    ∃ next, stepRack r words b = pure next ∧
      match r.step ways b with
      | none => next = []
      | some ways' => next ≠ [] ∧ ShowsWays r next ways' := by
  obtain ⟨nexts, hnexts, hways⟩ := h.step fun word tiles hshows => takeTile_eq hr hshows hb
  refine ⟨nexts.flatten.eraseDups, ?_, ?_⟩
  · rw [stepRack, letterPlace_eq hb, pure_bind, hnexts, pure_bind]
  · -- The rack gives up just if no way is left.
    rw [Rack.step]
    split
    · next hstep =>
      split at hstep
      · next hnone => exact hways.isEmpty_iff.mpr hnone
      · cases hstep
    · next ways' hstep =>
      split at hstep
      · cases hstep
      · next hsome =>
        cases hstep
        exact ⟨mt hways.isEmpty_iff.mp hsome, hways⟩

theorem acceptsRack_eq {words : List TileWord} {ways : List Tiles} (h : ShowsWays r words ways)
    (mode : RackMode) (length : Nat) : acceptsRack mode words length = Rack.accepts mode ways length := by
  have hempty : words.isEmpty = ways.isEmpty := by
    rw [Bool.eq_iff_iff, List.isEmpty_iff, List.isEmpty_iff, h.isEmpty_iff]
  -- An anagram asks for a way that uses all tiles, and such ways correspond.
  have hused : words.any allUsed = ways.any Tiles.isEmpty := by
    rw [Bool.eq_iff_iff, List.any_eq_true, List.any_eq_true]
    constructor
    · rintro ⟨word, hword, hall⟩
      obtain ⟨tiles, htiles, hshows⟩ := h.sound word hword
      exact ⟨tiles, htiles, by rw [← hshows.allUsed_eq, hall]⟩
    · rintro ⟨tiles, htiles, hall⟩
      obtain ⟨word, hword, hshows⟩ := h.complete tiles htiles
      exact ⟨word, hword, by rw [hshows.allUsed_eq, hall]⟩
  unfold acceptsRack Rack.accepts
  rw [hempty]
  cases mode with
  | anagram => dsimp only; rw [hused]
  | subanagram => rfl
  | consist min max => rfl

include hr in
/-- **Capital letters** are spelled without a fault, and no way is left if the rack gives up. -/
theorem spellTiles_eq {w : Word} (hw : w.InCapitals) {words : List TileWord} {ways : List Tiles}
    (h : ShowsWays r words ways) :
    ∃ last, spellTiles r words w = pure last ∧
      match w.foldlM r.step ways with
      | none => last = []
      | some ways' => ShowsWays r last ways' := by
  -- The ways are those behind the letters before, and each step is one of the rack.
  induction w generalizing words ways with
  | nil => exact ⟨words, rfl, h⟩
  | cons b w ih =>
    obtain ⟨next, hnext, hstep⟩ := stepRack_eq hr h (hw b (by simp))
    rw [spellTiles, hnext, pure_bind, List.foldlM_cons]
    cases hways : r.step ways b with
    | none =>
      rw [hways] at hstep
      rw [hstep]
      exact ⟨[], rfl, rfl⟩
    | some ways' =>
      rw [hways] at hstep
      rw [if_neg (mt List.isEmpty_iff.mp hstep.1)]
      exact ih hw.of_cons hstep.2

include hr in
/-- **Spelling a whole word** of capital letters makes no fault. -/
theorem spellsRack_eq (mode : RackMode) {w : Word} (hw : w.InCapitals) :
    spellsRack r mode w = pure (r.spells mode w) := by
  obtain ⟨word, hword, hstart⟩ := startTiles_eq hr
  obtain ⟨last, hlast, hways⟩ := spellTiles_eq hr hw (.single hstart)
  rw [spellsRack, hword, pure_bind, hlast, pure_bind, Rack.spells]
  cases hfold : w.foldlM r.step [r.start] with
  | none =>
    rw [hfold] at hways
    simp [hways, acceptsRack]
  | some ways =>
    rw [hfold] at hways
    exact congrArg pure (acceptsRack_eq hways mode w.length)

end Racks

end Checked

end WordStudy
