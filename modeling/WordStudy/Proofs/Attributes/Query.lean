import WordStudy.Attributes.Predicate
import WordStudy.Match.Pattern
import WordStudy.Proofs.Attributes.Mask
import WordStudy.Proofs.Attributes.Rows

/-!
# What predicates ask of a row

A condition that is left to the index becomes predicates on columns. A number in a column is in a
range as it is, as long as it has 32 bits; masks are made that say what patterns and lists of
letters say.
-/

namespace WordStudy

/-! ## §1 Numbers -/

namespace Cell

/-- **A number of 32 bits** lies in a range as it is. -/
theorem inBounds_number {n : Nat} (h : n ≤ Text.maxWord32) (r : Bounds) :
    (number n).inBounds r = r.contains n := by
  unfold inBounds order
  split
  -- A range of one number is an equation; another one may have no upper end.
  · next heq =>
    rw [Bool.eq_iff_iff, beq_iff_eq, Nat.compare_eq_eq]
    simp only [Bounds.contains, Bool.and_eq_true, decide_eq_true_eq]
    omega
  · rw [Bool.eq_iff_iff]
    simp only [Bounds.contains, Nat.isGE_compare, Nat.isLE_compare, Bool.and_eq_true,
      Bool.or_eq_true, decide_eq_true_eq]
    omega

/-- A flag is set where it is true. -/
theorem order_flag (b : Bool) : ((number b.toNat).order 1 == .eq) = b := by
  cases b <;> rfl

end Cell

/-! ## §2 Patterns and letters -/

/-- **The limits of texts** in a condition: a pattern is not too long to be read, and no letter is
listed more often than is counted. -/
def Condition.isModest : Condition → Bool
  | .pattern text _ => (Token.read text).all (·.length ≤ Pattern.maxTokens)
  | .containing letters _ =>
    alphabet.all fun l => (Word.ofText letters).upper.count l ≤ maxLetterCount
  | _ => true

namespace RowQuery

variable {row : Row}

theorem mem_wideSigns_of_isWidePattern {text : String} (h : isWidePattern text = true) :
    ∀ c ∈ text.toList, c ∈ Mask.wideSigns := by
  simp only [isWidePattern, Bool.and_eq_true, List.all_eq_true] at h
  exact fun c hc => Mask.mem_wideSigns (h.2 c hc)

/-- A wide pattern has a token for each sign. -/
theorem tokens_of_isWidePattern {text : String} (h : isWidePattern text = true) :
    Token.read text = some (text.toList.map Mask.wideToken) :=
  Mask.scan_of_wide (mem_wideSigns_of_isWidePattern h)

/-- A wide pattern that is not too long can be read. -/
theorem read_of_isWidePattern {text : String} (h : isWidePattern text = true) {negated : Bool}
    (hmodest : (Condition.pattern text negated).isModest = true) :
    Pattern.read text = some ⟨text.toList.map Mask.wideToken⟩ := by
  have hread := tokens_of_isWidePattern h
  have hsome : 2 ≤ text.toList.length := by
    simp only [isWidePattern, Bool.and_eq_true, decide_eq_true_eq] at h
    exact h.1.1.1
  have hlength : text.toList.length ≤ Pattern.maxTokens := by
    simpa [Condition.isModest, hread] using hmodest
  have hnonempty : (text.toList.map Mask.wideToken).isEmpty = false := by
    rw [List.isEmpty_eq_false_iff, ← List.length_pos_iff, List.length_map]
    omega
  simp [Pattern.read, hread, hnonempty, hlength]

/-- **The mask of a wide pattern** says what the pattern says. -/
theorem holds_pattern {text : String} (h : isWidePattern text = true) {negated : Bool}
    (hmodest : (Condition.pattern text negated).isModest = true) (hw : row.word.InCapitals) :
    (ofCondition (.pattern text negated)).all (·.holds row) =
      (Pattern.read text).any fun p => p.spells row.word != negated := by
  have hcovers := Mask.covers_ofPattern (mem_wideSigns_of_isWidePattern h) hw
  rw [read_of_isWidePattern h hmodest]
  simp only [ofCondition, List.all_cons, List.all_nil, Bool.and_true, Predicate.holds, Row.cell,
    Cell.bytes, String.toList_ofList, hcovers, Option.any_some, Pattern.spells]

/-- The predicates of listed letters, letter by letter. -/
theorem all_lettersLike (letters : String) (negated : Bool) (hw : row.word.InCapitals) :
    (lettersLike letters negated).all (·.holds row) =
      alphabet.all fun l =>
        let times := (Word.ofText letters).letterCount l
        !decide (0 < times) ||
          (decide ((if negated then 1 else times) ≤ row.word.count l) != negated) := by
  rw [lettersLike, List.all_map, List.all_filter, Bool.eq_iff_iff, List.all_eq_true,
    List.all_eq_true]
  refine forall₂_congr fun l hl => ?_
  have hcovers (times : Nat) :=
    Mask.covers_containing ((mem_alphabet_iff l).mp hl) times hw
  simp only [charOf] at hcovers
  simp only [Function.comp_def, Predicate.holds, Row.cell, Cell.bytes, String.toList_ofList, hcovers]

/-- **Letters to be contained** are counted by their masks. -/
theorem holds_containing {letters : String}
    (hmodest : (Condition.containing letters false).isModest = true) (hw : row.word.InCapitals) :
    (ofCondition (.containing letters false)).all (·.holds row) =
      alphabet.all fun l => decide ((Word.ofText letters).upper.count l ≤ row.word.count l) := by
  rw [ofCondition, all_lettersLike letters false hw, Bool.eq_iff_iff, List.all_eq_true,
    List.all_eq_true]
  refine forall₂_congr fun l hl => ?_
  -- No count is cut off.
  have hcount : (Word.ofText letters).letterCount l = (Word.ofText letters).upper.count l := by
    have hle := List.all_eq_true.mp hmodest l hl
    exact Nat.min_eq_right (by simpa using hle)
  simp only [hcount, Bool.false_eq_true, if_false, Bool.bne_false, Bool.or_eq_true,
    Bool.not_eq_true', decide_eq_false_iff_not, decide_eq_true_eq]
  omega

/-- **Letters not to be contained** are looked for by their masks. -/
theorem holds_not_containing (letters : String) (hw : row.word.InCapitals) :
    (ofCondition (.containing letters true)).all (·.holds row) =
      !row.word.any (Word.ofText letters).upper.contains := by
  rw [ofCondition, all_lettersLike letters true hw, Bool.eq_iff_iff, List.all_eq_true,
    Bool.not_eq_true', List.any_eq_false]
  -- A letter is listed if it is counted, for the count is cut off far above zero.
  have hlisted (l : UInt8) : 0 < (Word.ofText letters).letterCount l ↔
      (Word.ofText letters).upper.contains l = true := by
    have hmax : 0 < maxLetterCount := by decide
    rw [Word.letterCount, List.contains_iff_mem, ← List.count_pos_iff]
    omega
  simp only [if_true, Bool.or_eq_true, Bool.not_eq_true', decide_eq_false_iff_not, hlisted,
    bne_iff_ne, ne_eq, decide_eq_true_eq, Bool.not_eq_true]
  constructor
  · intro h l hl
    rcases h l ((mem_alphabet_iff l).mpr (hw l hl)) with hno | hcount
    · simpa using hno
    · exact absurd (List.count_pos_iff.mpr hl) hcount
  · intro h l _
    by_cases hl : l ∈ row.word
    · exact .inl (by rw [h l hl])
    · exact .inr (by simp [List.count_eq_zero.mpr hl])

/-! ## §3 Numbers, lists and flags -/

/-- **A range of a column of numbers** is a range of what stands there. -/
theorem holds_range (row : Row) (column : Column) {n : Nat} (hcell : row.cell column = .number n)
    (h : n ≤ Text.maxWord32) (r : Bounds) :
    (Predicate.range column r).holds row = r.contains n := by
  rw [Predicate.holds, hcell, Cell.inBounds_number h]

/-- **A tie overlaps a range** that is not empty if neither lies before the other. -/
theorem any_tied {ranks : Ranks} (htied : ranks.firstTied ≤ ranks.lastTied) {r : Bounds}
    (hr : r.isEmpty = false) :
    ((List.range (ranks.lastTied + 1)).any fun k => ranks.firstTied ≤ k && r.contains k) =
      (decide (r.least ≤ ranks.lastTied) && decide (ranks.firstTied ≤ r.greatest)) := by
  simp only [Bounds.isEmpty, decide_eq_false_iff_not] at hr
  rw [Bool.eq_iff_iff, List.any_eq_true]
  simp only [List.mem_range, Bounds.contains, Bool.and_eq_true, decide_eq_true_eq]
  constructor
  · rintro ⟨k, hk, hfirst, hleast, hgreatest⟩
    omega
  · rintro ⟨hleast, hgreatest⟩
    -- The first rank that both have.
    exact ⟨max r.least ranks.firstTied, by omega, by omega, by omega, by omega⟩

/-- **A lax range of ranks** overlaps the tie of the word. -/
theorem holds_laxRank {ranks : Ranks} (hfirst : row.firstTied = ranks.firstTied)
    (hlast : row.lastTied = ranks.lastTied) (htied : ranks.firstTied ≤ ranks.lastTied)
    (h : ranks.lastTied ≤ Text.maxWord32) {r : Bounds} (hr : r.isEmpty = false) :
    (ofCondition (.rank r true)).all (·.holds row) =
      (List.range (ranks.lastTied + 1)).any fun k => ranks.firstTied ≤ k && r.contains k := by
  have hlower := holds_range row .lastTied (congrArg Cell.number hlast) h (.atLeast r.least)
  have hupper := holds_range row .firstTied (congrArg Cell.number hfirst) (Nat.le_trans htied h)
    ⟨0, r.greatest⟩
  rw [any_tied htied hr, ofCondition, List.all_cons, List.all_cons, hlower, hupper]
  show ((decide (r.least ≤ ranks.lastTied) && decide (ranks.lastTied ≤ Text.maxWord32)) &&
    ((decide (0 ≤ ranks.firstTied) && decide (ranks.firstTied ≤ r.greatest)) && true)) = _
  simp [h]

/-- **A list of words** has the word of the row or not. -/
theorem holds_inList (words : List String) (negated : Bool) :
    (ofCondition (.inList words negated)).all (·.holds row) =
      (words.any (fun text => row.word == Word.ofText text.toUpper) != negated) := by
  simp only [ofCondition, List.all_cons, List.all_nil, Bool.and_true, Predicate.holds, List.any_map,
    Row.cell]
  rfl

/-- The predicates of a list of conditions hold if those of each condition do. -/
theorem all_ofConditions (conditions : List Condition) :
    (ofConditions conditions).all (·.holds row) =
      conditions.all fun c => (ofCondition c).all (·.holds row) := List.all_flatMap

end RowQuery

end WordStudy
