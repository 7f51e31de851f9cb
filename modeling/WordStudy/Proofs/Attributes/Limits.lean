import Mathlib.Algebra.Order.BigOperators.Group.List
import Mathlib.Algebra.Order.Group.Nat
import WordStudy.Attributes.Limits
import WordStudy.Proofs.Attributes.Query

/-!
# Where a store refuses

What is asked of a store becomes deeper with **every predicate**, and by one part more with candidates,
so that few predicates are always answered and too many never. Texts are too long only where lists are.
Masks are too long only where patterns are; whether one is, does not depend on the row, and a row of
which all predicates hold comes to every mask.
-/

namespace WordStudy

/-! ## §1 Depth -/

namespace RowQuery

theorem shape_range (column : Column) (r : Bounds) :
    (Predicate.range column r).shape.depth ≤ 4 ∧
      (Predicate.range column r).shape.isNever = false := by
  rw [Predicate.shape]
  split <;> decide

/-- The parts of a condition lie at most four deep, and ask for some rows. -/
theorem shape_ofCondition (c : Condition) :
    ∀ p ∈ ofCondition c, p.shape.depth ≤ 4 ∧ p.shape.isNever = false := by
  intro p hp
  cases c with
  | containing letters negated =>
    obtain ⟨l, _, rfl⟩ := List.mem_map.mp hp
    cases negated <;> simp [Predicate.shape, QueryShape.not, QueryShape.comparison]
  | inSet set negated =>
    obtain ⟨q, hq, rfl⟩ := Option.map_eq_some_iff.mp (Option.mem_toList.mp hp)
    cases set <;> cases hq <;> cases negated <;>
      simp [Predicate.shape, QueryShape.not, QueryShape.or, QueryShape.comparison]
  | rank r lax =>
    cases lax <;> simp only [ofCondition, List.mem_cons, List.not_mem_nil, or_false] at hp
    · rw [hp]
      exact shape_range _ _
    · rcases hp with rfl | rfl <;> exact shape_range _ _
  | pattern text negated =>
    obtain rfl := List.mem_singleton.mp hp
    cases negated <;> simp [Predicate.shape, QueryShape.not, QueryShape.comparison]
  | inList words negated =>
    obtain rfl := List.mem_singleton.mp hp
    cases negated <;> simp [Predicate.shape, QueryShape.not, QueryShape.listed]
  | _ =>
    simp only [ofCondition, List.mem_cons, List.not_mem_nil, or_false] at hp
    all_goals
      rw [hp]
      exact shape_range _ _

theorem shape_ofConditions {conditions : List Condition} {p : Predicate}
    (hp : p ∈ ofConditions conditions) : p.shape.depth ≤ 4 ∧ p.shape.isNever = false := by
  obtain ⟨c, -, hc⟩ := List.mem_flatMap.mp hp
  exact shape_ofCondition c p hc

end RowQuery

/-- Each part that is joined to others puts them one part deeper, and no more. -/
theorem QueryShape.fitsJoined_of_length_lt {before : QueryShape} {parts : List QueryShape} {n : Nat}
    (hbefore : before.depth ≤ n) (hparts : ∀ part ∈ parts, part.depth ≤ n)
    (hlength : n + parts.length < maxDepth) : before.fitsJoined parts = true := by
  induction parts generalizing before n with
  | nil =>
    have hlists : before.hasLists.toNat ≤ 1 := Bool.toNat_le _
    simp only [List.length_nil] at hlength
    simp only [fitsJoined, fits, decide_eq_true_eq]
    omega
  | cons part rest ih =>
    have hpart := hparts part (by simp)
    have hjoined : (before.and part).depth ≤ n + 1 := by
      unfold QueryShape.and
      split
      · exact Nat.le_add_left 1 n
      · simp only [QueryShape.or]
        omega
    rw [List.length_cons] at hlength
    simp only [fitsJoined, Bool.and_eq_true, decide_eq_true_eq]
    refine ⟨⟨by omega, by omega⟩, ih hjoined ?_ (by omega)⟩
    intro other hother
    exact Nat.le_succ_of_le (hparts other (by simp [hother]))

/-- **So few predicates** are never nested too deep, be there candidates or not. -/
theorem fitsDepth_ofConditions {conditions : List Condition}
    (h : (RowQuery.ofConditions conditions).length ≤ 994) (hasCandidates : Bool) :
    fitsDepth (RowQuery.ofConditions conditions) hasCandidates = true := by
  apply QueryShape.fitsJoined_of_length_lt (n := 4)
  · decide
  · -- Besides the predicates, the candidates are listed.
    intro part hpart
    rcases List.mem_append.mp hpart with hpart | hpart
    · obtain ⟨p, hp, rfl⟩ := List.mem_map.mp hpart
      exact (RowQuery.shape_ofConditions hp).1
    · cases hasCandidates <;> simp at hpart
      rw [hpart]
      decide
  · have hmax : QueryShape.maxDepth = 1000 := rfl
    cases hasCandidates <;> simp <;> omega

/-- A list that is looked into behind all other parts only makes the whole deeper. -/
theorem QueryShape.fitsJoined_of_append {before : QueryShape} {parts : List QueryShape}
    (hbefore : before.isNever = false) (hparts : ∀ part ∈ parts, part.isNever = false)
    (h : before.fitsJoined (parts ++ [.listed]) = true) : before.fitsJoined parts = true := by
  induction parts generalizing before with
  | nil =>
    have hlisted : QueryShape.listed.isNever = false := rfl
    have hand : before.and .listed = before.or .listed := by simp [QueryShape.and, hbefore, hlisted]
    simp only [List.nil_append, fitsJoined, hand, Bool.and_eq_true, decide_eq_true_eq, fits] at h ⊢
    have hlists : before.hasLists.toNat ≤ 1 := Bool.toNat_le _
    have hdeeper : before.depth + 1 ≤ (before.or .listed).depth := by
      simp only [QueryShape.or]
      omega
    omega
  | cons part rest ih =>
    have hpart := hparts part (by simp)
    have hand : before.and part = before.or part := by simp [QueryShape.and, hbefore, hpart]
    simp only [List.cons_append, fitsJoined, hand, Bool.and_eq_true] at h ⊢
    exact ⟨h.1, ih rfl (fun other hother => hparts other (by simp [hother])) h.2⟩

/-- **What is not too deep with candidates** is not too deep without them. -/
theorem fitsDepth_of_candidates {conditions : List Condition}
    (h : fitsDepth (RowQuery.ofConditions conditions) true = true) :
    fitsDepth (RowQuery.ofConditions conditions) false = true := by
  rw [fitsDepth, if_neg Bool.false_ne_true, List.append_nil]
  refine QueryShape.fitsJoined_of_append rfl ?_ h
  intro part hpart
  obtain ⟨p, hp, rfl⟩ := List.mem_map.mp hpart
  exact (RowQuery.shape_ofConditions hp).2

/-! ## §2 Texts -/

/-- The list of the condition, if it has one, is not too long for a store. -/
def Condition.fitsLists : Condition → Bool
  | .inList words _ => listSize (words.map String.toUpper) ≤ maxTextSize
  | _ => true

/-- Texts that are not too long beside candidates are not too long without them. -/
theorem isAskable_of_candidates {conditions : List Condition} {candidates : List Word}
    (h : isAskable (RowQuery.ofConditions conditions) (some candidates) = true) :
    isAskable (RowQuery.ofConditions conditions) none = true := by
  obtain ⟨hdepth, htexts⟩ := Bool.and_eq_true_iff.mp h
  obtain ⟨hpredicates, -⟩ := Bool.and_eq_true_iff.mp htexts
  exact Bool.and_eq_true_iff.mpr ⟨fitsDepth_of_candidates hdepth,
    Bool.and_eq_true_iff.mpr ⟨hpredicates, rfl⟩⟩

/-! ## §3 Masks -/

namespace RowQuery

variable {row : Row}

theorem utf8ByteSize_ofList_le (cs : List Char) :
    (String.ofList cs).utf8ByteSize ≤ 4 * cs.length := by
  induction cs with
  | nil => simp
  | cons c cs ih =>
    have hone := Char.utf8Size_le_four c
    rw [String.ofList_cons, String.utf8ByteSize_append, String.utf8ByteSize_singleton,
      List.length_cons]
    omega

theorem length_containing (l : Char) (times : Nat) :
    (Mask.containing l times).length = 2 * times + 1 := by
  simp [Mask.containing, Nat.mul_comm]

/-- Options of which none meets a long mask meet none together. -/
theorem meetsLongMask_any {options : List Predicate}
    (h : ∀ p ∈ options, p.meetsLongMask row = false) :
    (Predicate.any options).meetsLongMask row = false := by
  rw [Predicate.meetsLongMask, ← Bool.not_eq_true, Option.any_eq_true]
  rintro ⟨⟨p, hp⟩, _, hlong⟩
  have hshort := h p hp
  exact Bool.false_ne_true (hshort.symm.trans hlong)

/-- The flags of hooks have no masks. -/
theorem meetsLongMask_hookFlags {set : StudySet} {q : Predicate} (hq : hookFlags set = some q)
    (row : Row) : q.meetsLongMask row = false := by
  cases set <;> cases hq
  · apply meetsLongMask_any
    simp [Predicate.meetsLongMask]
  all_goals rw [Predicate.meetsLongMask]

/-- The flags of hooks have no texts. -/
theorem fitsTexts_hookFlags {set : StudySet} {q : Predicate} (hq : hookFlags set = some q) :
    q.fitsTexts = true := by
  cases set <;> cases hq <;> simp [Predicate.fitsTexts]

/-- **No mask is too long** where conditions are modest, nor is any other text but that of a list. -/
theorem limits_ofCondition {c : Condition} (hphase : c.phase true = .index)
    (hmodest : c.isModest = true) (row : Row) :
    ∀ p ∈ ofCondition c, p.meetsLongMask row = false ∧ (c.fitsLists = true → p.fitsTexts = true) := by
  have hlike {cs : List Char} {column : Column} {negated : Bool} (h : cs.length ≤ 1000) :
      (Predicate.like column (String.ofList cs) negated).meetsLongMask row = false ∧
        (Predicate.like column (String.ofList cs) negated).fitsTexts = true := by
    have hsize := utf8ByteSize_ofList_le cs
    rw [Predicate.meetsLongMask, decide_eq_false_iff_not, Predicate.fitsTexts, decide_eq_true_eq,
      maxMaskSize, maxTextSize]
    omega
  have hrange (column : Column) (r : Bounds) :
      (Predicate.range column r).meetsLongMask row = false ∧
        (Predicate.range column r).fitsTexts = true := by
    rw [Predicate.meetsLongMask, Predicate.fitsTexts]
    exact ⟨rfl, rfl⟩
  intro p hp
  cases c with
  | pattern text negated =>
    -- Each sign of a wide pattern is one character of the mask, and there are 127 at most.
    have hwide : isWidePattern text = true := by
      simp only [Condition.phase, Bool.true_and] at hphase
      split at hphase
      · assumption
      · cases hphase
    have hread := tokens_of_isWidePattern hwide
    have hlength : text.toList.length ≤ Pattern.maxTokens := by
      simpa [Condition.isModest, hread] using hmodest
    obtain rfl := List.mem_singleton.mp hp
    refine (hlike ?_).imp_right fun h _ => h
    rw [Mask.ofPattern_of_wide (mem_wideSigns_of_isWidePattern hwide), List.length_map]
    exact Nat.le_trans hlength (by decide)
  | containing letters negated =>
    -- A letter that is asked for 255 times, each time with a `%`.
    obtain ⟨l, _, rfl⟩ := List.mem_map.mp hp
    refine (hlike ?_).imp_right fun h _ => h
    have hcount : (Word.ofText letters).letterCount l ≤ maxLetterCount := Nat.min_le_left ..
    rw [length_containing]
    simp only [maxLetterCount] at hcount
    split <;> omega
  | inSet set negated =>
    obtain ⟨q, hq, rfl⟩ := Option.map_eq_some_iff.mp (Option.mem_toList.mp hp)
    have hlong := meetsLongMask_hookFlags hq row
    have htexts := fitsTexts_hookFlags hq
    split
    · rw [Predicate.meetsLongMask, Predicate.fitsTexts]
      exact ⟨hlong, fun _ => htexts⟩
    · exact ⟨hlong, fun _ => htexts⟩
  | inList words negated =>
    obtain rfl := List.mem_singleton.mp hp
    rw [Predicate.meetsLongMask, Predicate.fitsTexts]
    exact ⟨rfl, id⟩
  | rank r lax =>
    cases lax <;> simp only [ofCondition, List.mem_cons, List.not_mem_nil, or_false] at hp
    · exact hp ▸ (hrange .rank r).imp_right fun h _ => h
    · rcases hp with rfl | rfl <;> exact (hrange _ _).imp_right fun h _ => h
  | _ =>
    simp only [ofCondition, List.mem_cons, List.not_mem_nil, or_false] at hp
    all_goals exact hp ▸ (hrange _ _).imp_right fun h _ => h

theorem meetsLongMask_ofCondition {c : Condition} (hphase : c.phase true = .index)
    (hmodest : c.isModest = true) (row : Row) :
    ∀ p ∈ ofCondition c, p.meetsLongMask row = false :=
  fun p hp => (limits_ofCondition hphase hmodest row p hp).1

/-- **Whether a mask is too long** is seen without the row. -/
theorem meetsLongMask_congr {c : Condition} {p : Predicate} (hp : p ∈ ofCondition c)
    (row row' : Row) : p.meetsLongMask row = p.meetsLongMask row' := by
  cases c with
  | containing letters negated =>
    obtain ⟨l, -, rfl⟩ := List.mem_map.mp hp
    simp only [Predicate.meetsLongMask]
  | inSet set negated =>
    obtain ⟨q, hq, rfl⟩ := Option.map_eq_some_iff.mp (Option.mem_toList.mp hp)
    split
    · rw [Predicate.meetsLongMask, Predicate.meetsLongMask, meetsLongMask_hookFlags hq,
        meetsLongMask_hookFlags hq]
    · rw [meetsLongMask_hookFlags hq, meetsLongMask_hookFlags hq]
  | rank r lax =>
    cases lax <;> simp only [ofCondition, List.mem_cons, List.not_mem_nil, or_false] at hp
    · rw [hp, Predicate.meetsLongMask, Predicate.meetsLongMask]
    · rcases hp with rfl | rfl <;> rw [Predicate.meetsLongMask, Predicate.meetsLongMask]
  | _ =>
    simp only [ofCondition, List.mem_cons, List.not_mem_nil, or_false] at hp
    all_goals rw [hp, Predicate.meetsLongMask, Predicate.meetsLongMask]

end RowQuery

/-- Where no predicate meets a mask that is too long, none is met. -/
theorem meetsLongMask_eq_false {predicates : List Predicate} {rows : List Row}
    (h : ∀ p ∈ predicates, ∀ row : Row, p.meetsLongMask row = false) :
    meetsLongMask predicates rows = false := by
  rw [meetsLongMask, Bool.and_eq_false_iff]
  right
  rw [List.any_eq_false]
  intro row _
  rw [Option.any_eq_true]
  rintro ⟨p, hp, hlong⟩
  rw [h p (List.mem_of_find?_eq_some hp) row] at hlong
  cases hlong

/-- **A row of which everything holds comes to every mask**, so that none is too long if the store
answers. -/
theorem meetsLongMask_eq_false_of_holds {conditions : List Condition} {rows : List Row}
    (h : meetsLongMask (RowQuery.ofConditions conditions) rows = false) {row : Row}
    (hrow : row ∈ rows) (hholds : ∀ p ∈ RowQuery.ofConditions conditions, p.holds row = true)
    {p : Predicate} (hp : p ∈ RowQuery.ofConditions conditions) (row' : Row) :
    p.meetsLongMask row' = false := by
  have hnever : (RowQuery.ofConditions conditions).any (fun p => p.shape.isNever) = false := by
    rw [List.any_eq_false]
    intro q hq
    simp [(RowQuery.shape_ofConditions hq).2]
  rw [meetsLongMask, hnever, Bool.not_false, Bool.true_and, List.any_eq_false] at h
  have hrow := h row hrow
  obtain ⟨c, -, hc⟩ := List.mem_flatMap.mp hp
  rw [RowQuery.meetsLongMask_congr hc row' row]
  -- The first predicate that stops the test is one with a long mask, for all others hold.
  cases hfind : (RowQuery.ofConditions conditions).find?
      (fun q => q.meetsLongMask row || !q.holds row) with
  | none =>
    have hnone := List.find?_eq_none.mp hfind p hp
    simp only [Bool.or_eq_true, not_or] at hnone
    simpa using hnone.1
  | some q =>
    have hstops := List.find?_some hfind
    have hholdsq := hholds q (List.mem_of_find?_eq_some hfind)
    simp only [hholdsq, Bool.not_true, Bool.or_false] at hstops
    simp [hfind, hstops] at hrow

/-- **So few predicates with so short texts** are always looked for. -/
theorem isAskable_ofConditions {conditions : List Condition}
    (hfew : (RowQuery.ofConditions conditions).length ≤ 994)
    (hconditions : ∀ c ∈ conditions,
      c.phase true = .index ∧ c.isModest = true ∧ c.fitsLists = true)
    {candidates : Option (List Word)}
    (hcandidates : ∀ words ∈ candidates,
      listSize (words.map fun w => Word.text w.upper) ≤ maxTextSize) :
    isAskable (RowQuery.ofConditions conditions) candidates = true := by
  have htexts : (RowQuery.ofConditions conditions).all (·.fitsTexts) = true := by
    refine List.all_eq_true.mpr fun p hp => ?_
    obtain ⟨c, hc, hpc⟩ := List.mem_flatMap.mp hp
    obtain ⟨hphase, hmodest, hlists⟩ := hconditions c hc
    -- No row matters for texts.
    exact (RowQuery.limits_ofCondition hphase hmodest { word := [] } p hpc).2 hlists
  have hlist : (candidates.all fun words =>
      listSize (words.map fun w => Word.text w.upper) ≤ maxTextSize) = true := by
    cases candidates with
    | none => rfl
    | some words => exact decide_eq_true (hcandidates words rfl)
  rw [isAskable, fitsDepth_ofConditions hfew, fitsTexts, htexts, hlist]
  rfl

end WordStudy
