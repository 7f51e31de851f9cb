import WordStudy.Proofs.Graph.Marks
import WordStudy.Proofs.Graph.Vocabulary
import WordStudy.Proofs.Match.LetterTiles
import WordStudy.Proofs.Match.MarkSearch

/-!
# What the marks of a search say

The words of a marked search are those of the search, with the letters in lower case that some
positive pattern or rack does not spell literally. For a pattern, the letters that count are those
that fall on a letter in the least alignment; for a rack, those that its letter tiles suffice for.
**Both are marks of a real match**, the one by which the word was found.
-/

namespace WordStudy

/-! ## §1 What is asked of a letter -/

/-- **The letter at a place falls on a letter of the pattern** in the least alignment. -/
def Pattern.IsLiteralAt (p : Pattern) (w : Word) (j : Nat) : Prop :=
  ∃ pieces, IsLeastAlignment p.tokens w pieces ∧
    (tokensOfBytes p.tokens pieces)[j]?.any Token.isLetter = true

/-- **The letter tiles suffice for the letter at a place**, if those in front of it come first. -/
def TilesSuffice (signs : List Token) (w : Word) (j : Nat) : Prop :=
  ∃ b, w[j]? = some b ∧ (w.take (j + 1)).count b ≤ signs.count (.letter b)

namespace Condition

/-- The text of a positive pattern. -/
def patternOf? : Condition → Option String
  | pattern text false => some text
  | _ => none

/-- The letters of a positive rack, and how it is to be used. -/
def rackOf? : Condition → Option (String × RackMode)
  | anagram letters false => some (letters, .anagram)
  | subanagram letters false => some (letters, .subanagram)
  | consist letters lengths false =>
    some (letters, .consist (max lengths.least 1) lengths.greatest)
  | _ => none

/-- **The condition spells a letter literally**, if it is a positive pattern or rack. -/
def SpellsLiterally (c : Condition) (w : Word) (j : Nat) : Prop :=
  (∀ text, c.patternOf? = some text → ∃ p, Pattern.read text = some p ∧ p.IsLiteralAt w j) ∧
    ∀ letters mode, c.rackOf? = some (letters, mode) →
      ∃ signs, Token.read letters = some signs ∧ TilesSuffice signs w j

/-- **The marks of the condition are realised**: a pattern has one least alignment with the word,
whose letters are what the search finds that tries tokens in turn and remembers where it failed; and
a rack has an assignment that its mode asks for, in which just the letters that the letter tiles
suffice for have letter tiles. -/
def IsRealised (c : Condition) (w : Word) : Prop :=
  (∀ text, c.patternOf? = some text →
    ∃ p, Pattern.read text = some p ∧ (∃! pieces, IsLeastAlignment p.tokens w pieces) ∧
      ∀ pieces, IsLeastAlignment p.tokens w pieces →
        p.findLiterals w = some ((tokensOfBytes p.tokens pieces).map Token.isLetter)) ∧
    ∀ letters mode, c.rackOf? = some (letters, mode) → ∃ signs, Token.read letters = some signs ∧
      ∃ a : TileAssignment (signs.filter (!·.isStar)) (signs.any Token.isStar) w,
        mode.IsMetBy a ∧ ∀ j, a.onLetters[j]? = some true ↔ TilesSuffice signs w j

variable {c : Condition} {w : Word}

theorem spells_of_patternOf {text : String} (h : c.patternOf? = some text)
    (hfits : c.fits w = true) : ∃ p, Pattern.read text = some p ∧ p.spells w = true := by
  unfold patternOf? at h
  split at h
  · cases h
    simpa [fits, patternFits, Option.any_eq_true] using hfits
  · cases h

theorem spells_of_rackOf {letters : String} {mode : RackMode}
    (h : c.rackOf? = some (letters, mode)) (hfits : c.fits w = true) :
    ∃ r, Rack.read letters = some r ∧ r.spells mode w = true := by
  unfold rackOf? at h
  split at h <;> first
    | cases h
      simpa [fits, rackFits, Option.any_eq_true] using hfits
    | cases h

end Condition

/-! ## §2 The marks of one matcher -/

/-- Where a pattern spells the word, its marks are the letters that are literal. -/
theorem Pattern.isLiteralAt_iff {p : Pattern} {w : Word} (h : p.spells w = true) (j : Nat) :
    p.IsLiteralAt w j ↔ ∀ marks, p.literalLetters w = some marks → marks[j]? = some true := by
  obtain ⟨pieces, hleast, honly⟩ := Pattern.existsUnique_isLeastAlignment h
  rw [Pattern.literalLetters_of_isLeastAlignment hleast]
  simp only [Option.some.injEq, forall_eq', List.getElem?_map, Option.map_eq_some_iff]
  constructor
  · rintro ⟨other, hother, hletter⟩
    obtain rfl := honly other hother
    exact (Option.any_eq_true _ _).mp hletter
  · intro hletter
    exact ⟨pieces, hleast, (Option.any_eq_true _ _).mpr hletter⟩

/-- The marks of a rack are the letters that its letter tiles suffice for. -/
theorem Rack.getElem?_literalLetters_iff {signs : List Token} {w : Word} {j : Nat} :
    ((ofTokens signs).literalLetters w)[j]? = some true ↔ TilesSuffice signs w j := by
  cases hb : w[j]? with
  | none =>
    have hshort : w.length ≤ j := List.getElem?_eq_none_iff.mp hb
    have hnone : ((ofTokens signs).literalLetters w)[j]? = none :=
      List.getElem?_eq_none_iff.mpr ((length_spendLetters _ w).le.trans hshort)
    simp [hnone, TilesSuffice, hb]
  | some b =>
    rw [literalLetters, ofTokens, getElem?_spendLetters hb, count_lettersOf]
    simp [TilesSuffice, hb]

/-- **The marks of a condition are realised** if the word fits it. -/
theorem Condition.isRealised_of_fits {c : Condition} {w : Word} (hfits : c.fits w = true) :
    c.IsRealised w := by
  constructor
  -- A pattern's marks are those of its least alignment, which is the only one.
  · intro text htext
    obtain ⟨p, hread, hspells⟩ := spells_of_patternOf htext hfits
    refine ⟨p, hread, Pattern.existsUnique_isLeastAlignment hspells, fun pieces hleast => ?_⟩
    rw [Pattern.findLiterals_eq, Pattern.literalLetters_of_isLeastAlignment hleast]
  -- A rack's marks are those of the letters it has left, which an assignment spends.
  · intro letters mode hrack
    obtain ⟨r, hread, hspells⟩ := spells_of_rackOf hrack hfits
    obtain ⟨signs, hsigns, a, hmet, hmarks⟩ := Rack.exists_assignment_onLetters hread hspells
    obtain ⟨signs', hsigns', rfl⟩ := Rack.eq_ofTokens_of_read hread
    obtain rfl : signs = signs' := Option.some.inj (hsigns.symm.trans hsigns')
    refine ⟨signs, hsigns, a, hmet, fun j => ?_⟩
    rw [hmarks, Rack.getElem?_literalLetters_iff]

/-! ## §3 The marks of a query -/

namespace GraphQuery

theorem mem_of_addPattern {q q' : GraphQuery} {text : String} {negated : Bool}
    (h : q.addPattern text negated = some q') :
    (∀ p, p ∈ q'.patterns ↔ p ∈ q.patterns ∨ (negated = false ∧ Pattern.read text = some p)) ∧
      q'.racks = q.racks := by
  obtain ⟨p, hp, rfl⟩ := Option.map_eq_some_iff.mp h
  cases negated with
  | true => exact ⟨fun _ => by simp, rfl⟩
  | false => exact ⟨fun _ => by simp [hp, eq_comm], rfl⟩

theorem mem_of_addRack {q q' : GraphQuery} {letters : String} {mode : RackMode} {negated : Bool}
    (h : q.addRack letters mode negated = some q') :
    q'.patterns = q.patterns ∧
      ∀ r mode', (r, mode') ∈ q'.racks ↔ (r, mode') ∈ q.racks ∨
        (negated = false ∧ mode = mode' ∧ Rack.read letters = some r) := by
  obtain ⟨r, hr, rfl⟩ := Option.map_eq_some_iff.mp h
  cases negated with
  | true => exact ⟨rfl, fun _ _ => by simp⟩
  | false => exact ⟨rfl, fun _ _ => by simp [hr, eq_comm, and_comm]⟩

/-- What a condition adds to the positive part of a query. -/
theorem mem_of_add {q q' : GraphQuery} {c : Condition} (h : q.add c = some q') :
    (∀ p, p ∈ q'.patterns ↔ p ∈ q.patterns ∨
      ∃ text, c.patternOf? = some text ∧ Pattern.read text = some p) ∧
    ∀ r mode, (r, mode) ∈ q'.racks ↔ (r, mode) ∈ q.racks ∨
      ∃ letters, c.rackOf? = some (letters, mode) ∧ Rack.read letters = some r := by
  -- Only conditions with a text or a rack, and these only when not negated, add to the query.
  cases c with
  | pattern text negated =>
    obtain ⟨hpatterns, hracks⟩ := mem_of_addPattern h
    cases negated <;> simp [hpatterns, hracks, Condition.patternOf?, Condition.rackOf?]
  | anagram letters negated =>
    obtain ⟨hpatterns, hracks⟩ := mem_of_addRack h
    cases negated <;> simp [hpatterns, hracks, Condition.patternOf?, Condition.rackOf?]
  | subanagram letters negated =>
    obtain ⟨hpatterns, hracks⟩ := mem_of_addRack h
    cases negated <;> simp [hpatterns, hracks, Condition.patternOf?, Condition.rackOf?]
  | consist letters lengths negated =>
    obtain ⟨hpatterns, hracks⟩ := mem_of_addRack h
    cases negated <;> simp [hpatterns, hracks, Condition.patternOf?, Condition.rackOf?]
  | length range =>
    cases h
    have hothers : (q.addLengths range).patterns = q.patterns ∧
        (q.addLengths range).racks = q.racks := by
      unfold addLengths
      split <;> exact ⟨rfl, rfl⟩
    simp [hothers, Condition.patternOf?, Condition.rackOf?]
  | _ =>
    cases h
    simp [Condition.patternOf?, Condition.rackOf?]

/-- **The positive part of a query** is that of its conditions. -/
theorem mem_of_foldlM_add {conditions : List Condition} {q q' : GraphQuery}
    (h : conditions.foldlM add q = some q') :
    (∀ p, p ∈ q'.patterns ↔ p ∈ q.patterns ∨
      ∃ c ∈ conditions, ∃ text, c.patternOf? = some text ∧ Pattern.read text = some p) ∧
    ∀ r mode, (r, mode) ∈ q'.racks ↔ (r, mode) ∈ q.racks ∨
      ∃ c ∈ conditions, ∃ letters, c.rackOf? = some (letters, mode) ∧
        Rack.read letters = some r := by
  -- Each condition adds its own to what the conditions before it added.
  induction conditions generalizing q with
  | nil =>
    cases h
    simp
  | cons c conditions ih =>
    rw [List.foldlM_cons] at h
    obtain ⟨next, hnext, hrest⟩ := Option.bind_eq_some_iff.mp h
    obtain ⟨hpatterns, hracks⟩ := mem_of_add hnext
    obtain ⟨hpatterns', hracks'⟩ := ih hrest
    constructor
    · intro p
      rw [hpatterns', hpatterns, or_assoc, List.exists_mem_cons_iff]
    · intro r mode
      rw [hracks', hracks, or_assoc, List.exists_mem_cons_iff]

/-- Matchers whose marks are put together one by one leave **the marks that all of them make**. -/
theorem getElem?_foldl_iff {α : Type} {step : List Bool → α → List Bool} (isMarked : α → Prop)
    {j : Nat} (hstep : ∀ marks a, (step marks a)[j]? = some true ↔
      marks[j]? = some true ∧ isMarked a) (matchers : List α) (marks : List Bool) :
    (matchers.foldl step marks)[j]? = some true ↔
      marks[j]? = some true ∧ ∀ a ∈ matchers, isMarked a := by
  induction matchers generalizing marks with
  | nil => simp
  | cons a matchers ih => rw [List.foldl_cons, ih, hstep, List.forall_mem_cons, and_assoc]

theorem getElem?_bothLiteral_iff (marks others : List Bool) (j : Nat) :
    (bothLiteral marks others)[j]? = some true ↔
      marks[j]? = some true ∧ others[j]? = some true := by
  rw [bothLiteral, List.getElem?_zipWith]
  cases marks[j]? <;> cases others[j]? <;> simp

/-- The marks of a query are those that all its patterns and racks make. -/
theorem getElem?_literalLetters_iff (q : GraphQuery) {w : Word} {j : Nat} (hj : j < w.length) :
    (q.literalLetters w)[j]? = some true ↔
      (∀ p ∈ q.patterns, ∀ marks, p.literalLetters w = some marks → marks[j]? = some true) ∧
        ∀ rack ∈ q.racks, (rack.1.literalLetters w)[j]? = some true := by
  have hstart : (w.map fun _ => true)[j]? = some true := by
    rw [List.getElem?_map, List.getElem?_eq_getElem hj]
    rfl
  refine (getElem?_foldl_iff (fun rack => (rack.1.literalLetters w)[j]? = some true)
    (fun marks rack => getElem?_bothLiteral_iff marks _ j) q.racks _).trans
      (and_congr_left fun _ => ?_)
  refine (getElem?_foldl_iff (fun p => ∀ more, p.literalLetters w = some more →
    more[j]? = some true) (fun marks p => ?_) q.patterns _).trans (and_iff_right hstart)
  cases p.literalLetters w with
  | none => simp
  | some more => simp [getElem?_bothLiteral_iff]

/-- **A letter is marked by the query** of conditions if every one of them spells it literally. -/
theorem getElem?_literalLetters_of_fits {conditions : List Condition} {q : GraphQuery}
    (hq : ofConditions conditions = some q) {w : Word} (hfits : ∀ c ∈ conditions, c.fits w = true)
    {j : Nat} (hj : j < w.length) :
    (q.literalLetters w)[j]? = some true ↔ ∀ c ∈ conditions, c.SpellsLiterally w j := by
  obtain ⟨hpatterns, hracks⟩ := mem_of_foldlM_add hq
  simp only [any, List.not_mem_nil, false_or] at hpatterns hracks
  rw [getElem?_literalLetters_iff q hj]
  constructor
  -- The query's patterns and racks are those of the conditions, each read once.
  · rintro ⟨hliteral, hsuffice⟩ c hc
    constructor
    · intro text htext
      obtain ⟨p, hread, hspells⟩ := Condition.spells_of_patternOf htext (hfits c hc)
      have hmem := (hpatterns p).mpr ⟨c, hc, text, htext, hread⟩
      exact ⟨p, hread, (Pattern.isLiteralAt_iff hspells j).mpr (hliteral p hmem)⟩
    · intro letters mode hrack
      obtain ⟨r, hread, -⟩ := Condition.spells_of_rackOf hrack (hfits c hc)
      obtain ⟨signs, hsigns, rfl⟩ := Rack.eq_ofTokens_of_read hread
      have hmem := (hracks _ mode).mpr ⟨c, hc, letters, hrack, hread⟩
      exact ⟨signs, hsigns, Rack.getElem?_literalLetters_iff.mp (hsuffice _ hmem)⟩
  · intro hall
    constructor
    · intro p hp
      obtain ⟨c, hc, text, htext, hread⟩ := (hpatterns p).mp hp
      obtain ⟨p', hread', hspells⟩ := Condition.spells_of_patternOf htext (hfits c hc)
      obtain ⟨p'', hread'', hliteral⟩ := (hall c hc).1 text htext
      -- Both readings of the text are one, as reading is a function.
      rw [hread] at hread' hread''
      cases hread'
      cases hread''
      exact (Pattern.isLiteralAt_iff hspells j).mp hliteral
    · rintro ⟨r, mode⟩ hr
      obtain ⟨c, hc, letters, hrack, hread⟩ := (hracks r mode).mp hr
      obtain ⟨signs, hsigns, hsuffice⟩ := (hall c hc).2 letters mode hrack
      obtain ⟨signs', hsigns', rfl⟩ := Rack.eq_ofTokens_of_read hread
      rw [hsigns] at hsigns'
      cases hsigns'
      exact Rack.getElem?_literalLetters_iff.mpr hsuffice

/-! ## §4 The marked words -/

/-- A capital letter is written as one byte, in the case that its mark says. -/
theorem marked_of_isUpper {b : UInt8} (hb : isUpper b = true) (literal : Bool) :
    String.utf8EncodeChar (Char.ofNat (if literal then b else lowerByte b).toNat) =
        [if literal then b else lowerByte b] ∧
      isUpper (if literal then b else lowerByte b) = literal := by
  refine forall_isUpper (p := fun b => ∀ literal : Bool,
    String.utf8EncodeChar (Char.ofNat (if literal then b else lowerByte b).toNat) =
        [if literal then b else lowerByte b] ∧
      isUpper (if literal then b else lowerByte b) = literal) ?_ hb literal
  decide +kernel

/-- **A word of capital letters is marked letter by letter.** -/
theorem markWildcards_eq (q : GraphQuery) {w : Word} (hw : w.InCapitals) :
    q.markWildcards w =
      (w.zip (q.literalLetters w)).map fun (b, literal) => if literal then b else lowerByte b := by
  rw [markWildcards, List.map_eq_flatMap]
  refine List.flatMap_congr fun x hx => ?_
  exact (marked_of_isUpper (hw x.1 (List.of_mem_zip hx).1) x.2).1

/-- The case of each letter of a marked word is its mark. -/
theorem isUpper_markWildcards (q : GraphQuery) {w : Word} (hw : w.InCapitals) {j : Nat} {b : UInt8}
    (hb : (q.markWildcards w)[j]? = some b) :
    j < w.length ∧ (isUpper b = true ↔ (q.literalLetters w)[j]? = some true) := by
  rw [markWildcards_eq q hw, List.getElem?_map, Option.map_eq_some_iff] at hb
  obtain ⟨⟨c, literal⟩, hzip, rfl⟩ := hb
  obtain ⟨hc, hliteral⟩ := List.getElem?_zip_eq_some.mp hzip
  refine ⟨(List.getElem?_eq_some_iff.mp hc).1, ?_⟩
  rw [(marked_of_isUpper (hw c (List.mem_of_getElem? hc)) literal).2, hliteral, Option.some.injEq]

end GraphQuery

namespace Vocabulary

/-- **A marked search, after any history.** The vocabulary has words of capital letters. Then the
words of the marked search are those of the search, in the same order, and the same in upper case; a
letter is a capital exactly if every positive pattern and rack among the conditions spells it
literally. And the marks of each pattern and rack are those of a match: a pattern has one least
alignment with the word, whose letters are found by the search that remembers its failures, and the
letters can be assigned to the tiles of a rack as its mode asks so that just those that its letter
tiles suffice for have letter tiles. -/
theorem searchMarked_of_history (steps : List VocabularyStep) (conditions : List Condition)
    (hcapitals : ∀ w ∈ (empty.runSteps steps).words, w.InCapitals) :
    ((empty.runSteps steps).searchMarked conditions).map Word.upper =
        (empty.runSteps steps).search conditions ∧
      (∀ w m, (w, m) ∈ ((empty.runSteps steps).search conditions).zip
          ((empty.runSteps steps).searchMarked conditions) → m.length = w.length ∧
        ∀ j b, m[j]? = some b →
          (isUpper b = true ↔ ∀ c ∈ conditions, c.SpellsLiterally w j)) ∧
      ∀ w ∈ (empty.runSteps steps).search conditions, ∀ c ∈ conditions, c.IsRealised w := by
  have hsound := isSound_empty.runSteps steps
  have hfound : ∀ w ∈ (empty.runSteps steps).search conditions,
      w.InCapitals ∧ ∀ c ∈ conditions, c.fits w = true := by
    intro w hw
    rw [hsound.search_eq_filter] at hw
    obtain ⟨hmem, hall⟩ := List.mem_filter.mp hw
    exact ⟨hcapitals w hmem, List.all_eq_true.mp hall⟩
  have hrealised : ∀ w ∈ (empty.runSteps steps).search conditions, ∀ c ∈ conditions,
      c.IsRealised w := fun w hw c hc => Condition.isRealised_of_fits ((hfound w hw).2 c hc)
  cases hq : GraphQuery.ofConditions conditions with
  | none =>
    -- A malformed text leaves no word, marked or not.
    have hnone : (empty.runSteps steps).searchMarked conditions = [] := by rw [searchMarked, hq]
    have hnone' : (empty.runSteps steps).search conditions = [] := by rw [search, hq]
    simp [hnone, hnone']
  | some q =>
    have hmarked : (empty.runSteps steps).searchMarked conditions =
        ((empty.runSteps steps).search conditions).map q.markWildcards := by
      rw [searchMarked, search, hq]
    rw [hmarked]
    refine ⟨?_, fun w m hpair => ?_, hrealised⟩
    · rw [List.map_map]
      refine (List.map_congr_left fun w hw => ?_).trans (List.map_id' _)
      exact GraphQuery.upper_markWildcards q (hfound w hw).1.isPlain
    · have hzip := List.zip_map' (f := id) (g := q.markWildcards)
        (l := (empty.runSteps steps).search conditions)
      simp only [List.map_id, id] at hzip
      rw [hzip] at hpair
      obtain ⟨_, hw, heq⟩ := List.mem_map.mp hpair
      cases heq
      obtain ⟨hupper, hfits⟩ := hfound w hw
      refine ⟨?_, fun j b hb => ?_⟩
      · rw [GraphQuery.markWildcards_eq q hupper, List.length_map, List.length_zip,
          GraphQuery.length_literalLetters, Nat.min_self]
      · obtain ⟨hj, hcase⟩ := GraphQuery.isUpper_markWildcards q hupper hb
        rw [hcase, GraphQuery.getElem?_literalLetters_of_fits hq hfits hj]

/-- The pattern spells the first and last letter of `CAT` itself, and so does the rack. -/
theorem searchMarked_of_pattern_and_rack :
    ∃ steps conditions, (∀ w ∈ (empty.runSteps steps).words, w.InCapitals) ∧
      (empty.runSteps steps).searchMarked conditions = [[0x43, 0x61, 0x54]] ∧
      ((empty.runSteps steps).searchMarked conditions).map Word.upper =
        (empty.runSteps steps).search conditions ∧
      ∀ w ∈ (empty.runSteps steps).search conditions, ∀ c ∈ conditions, c.IsRealised w := by
  let steps := [VocabularyStep.importWords [[0x43, 0x41, 0x54], [0x44, 0x4F, 0x47]]]
  let conditions := [Condition.pattern "C*t" false, .anagram "t?C" false]
  have hcapitals : ∀ w ∈ (empty.runSteps steps).words, w.InCapitals := by decide +kernel
  obtain ⟨hsame, -, hrealised⟩ := searchMarked_of_history steps conditions hcapitals
  exact ⟨steps, conditions, hcapitals, by decide +kernel, hsame, hrealised⟩

end Vocabulary

end WordStudy
