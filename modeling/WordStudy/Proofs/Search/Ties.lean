import Mathlib.Data.List.Nodup
import WordStudy.Proofs.Lexicon.Reading

/-!
# Normal forms and ties

A lax range of ranks asks for one of the ranks that are tied with a word. In a normal form two lax
ranges become one, namely what they share, so that they ask for **the same** rank of the tie. Hence
a normal form holds exactly if the conditions hold with one rank chosen for all lax ranges. It never
holds when the conditions do not, but two lax ranges that a tie meets apart are lost.
-/

namespace WordStudy

open Condition

/-- **What is known of a word** that conditions are held against: its letters, its numbers, the
ranks tied with it, and what becomes of conditions on anything else. -/
structure WordFacts where
  word : Word
  vowels : Nat
  distinct : Nat
  points : Nat
  anagrams : Nat
  rank : Nat
  firstTied : Nat
  lastTied : Nat
  first_le : firstTied ≤ rank
  le_last : rank ≤ lastTied
  /-- What holds of letters contained, of words in front and behind, of sets and of lists. -/
  others : Condition → Bool
  others_upper : ∀ c, others c.upper = others c

namespace WordFacts

/-! ## §1 Reading conditions -/

/-- The ranks that are tied with the word. -/
def tie (f : WordFacts) : List Nat := (List.range (f.lastTied + 1)).filter (f.firstTied ≤ ·)

theorem rank_mem_tie (f : WordFacts) : f.rank ∈ f.tie := by
  simp [tie, f.first_le, Nat.lt_succ_of_le f.le_last]

/-- The condition read with rank `k` in the place of the tie. -/
def holdsAt (f : WordFacts) (k : Nat) : Condition → Bool
  | .vowels r => r.contains f.vowels
  | .distinct r => r.contains f.distinct
  | .points r => r.contains f.points
  | .anagrams r => r.contains f.anagrams
  | .rank r lax => r.contains (if lax then k else f.rank)
  | .containing letters negated => f.others (.containing letters negated)
  | .takesFront front negated => f.others (.takesFront front negated)
  | .takesBack back negated => f.others (.takesBack back negated)
  | .inSet set negated => f.others (.inSet set negated)
  | .inList words negated => f.others (.inList words negated)
  | c => c.fits f.word

/-- **The condition holds of the word**; a lax range of ranks, if one of the tied ranks is in it. -/
def holds (f : WordFacts) : Condition → Bool
  | .rank r true => f.tie.any r.contains
  | c => f.holdsAt f.rank c

/-- **With one rank for the tie**, the reading respects normal forms. -/
theorem soundReading_holdsAt (f : WordFacts) (k : Nat) : SoundReading (f.holdsAt k) where
  upper c := by
    cases c with
    | containing letters negated => exact f.others_upper (.containing letters negated)
    | takesFront front negated => exact f.others_upper (.takesFront front negated)
    | takesBack back negated => exact f.others_upper (.takesBack back negated)
    | inSet set negated => exact f.others_upper (.inSet set negated)
    | inList words negated => exact f.others_upper (.inList words negated)
    | pattern text negated => exact fits_upper (.pattern text negated) f.word
    | anagram letters negated => exact fits_upper (.anagram letters negated) f.word
    | subanagram letters negated => exact fits_upper (.subanagram letters negated) f.word
    | consist letters lengths negated => exact fits_upper (.consist letters lengths negated) f.word
    | _ => rfl
  hint c r hr h := by
    -- Only patterns and racks imply a length, and these are read by their letters.
    have hfits : c.fits f.word = true := by
      cases c <;> first | exact h | cases hr
    simpa [holdsAt, fits] using contains_of_lengthHint hr hfits
  narrow a _ r s := by
    cases a <;> simp [holdsAt, RangedAttribute.condition, fits, Bounds.contains_narrow]
  empty a r hr := by
    cases a <;> simp [holdsAt, RangedAttribute.condition, fits, Bounds.contains_of_isEmpty hr]

theorem laxMeets_holdsAt (f : WordFacts) (k : Nat) : LaxMeets (f.holdsAt k) :=
  fun r s => Bounds.contains_narrow r s k

/-- The rank chosen for the tie matters for lax ranges only. -/
theorem holdsAt_of_not_lax (f : WordFacts) {c : Condition} (h : c.isLax = false) (k : Nat) :
    f.holdsAt k c = f.holds c := by
  cases c with
  | rank r lax =>
    obtain rfl : lax = false := h
    rfl
  | _ => rfl

/-- What holds with one of the tied ranks holds. -/
theorem holds_of_holdsAt {f : WordFacts} {k : Nat} (hk : k ∈ f.tie) {c : Condition}
    (h : f.holdsAt k c = true) : f.holds c = true := by
  by_cases hlax : c.isLax = true
  · cases c with
    | rank r lax =>
      obtain rfl : lax = true := hlax
      exact List.any_eq_true.mpr ⟨k, hk, h⟩
    | _ => cases hlax
  · rw [← f.holdsAt_of_not_lax (by simpa using hlax) k, h]

/-- Without lax ranges, any rank does for the tie. -/
theorem all_holdsAt_of_countP_eq_zero (f : WordFacts) {conditions : List Condition}
    (h : conditions.countP isLax = 0) (k : Nat) :
    conditions.all (f.holdsAt k) = conditions.all f.holds := by
  rw [List.countP_eq_zero] at h
  rw [Bool.eq_iff_iff, List.all_eq_true, List.all_eq_true]
  refine forall₂_congr fun c hc => ?_
  rw [f.holdsAt_of_not_lax (by simpa using h c hc)]

/-- **With one lax range at most**, conditions hold exactly if they do with one of the tied
ranks. -/
theorem all_holds_iff (f : WordFacts) {conditions : List Condition}
    (hlax : conditions.countP isLax ≤ 1) :
    conditions.all f.holds = true ↔ ∃ k ∈ f.tie, conditions.all (f.holdsAt k) = true := by
  constructor
  · intro h
    induction conditions with
    | nil => exact ⟨f.rank, f.rank_mem_tie, rfl⟩
    | cons c rest ih =>
      simp only [List.all_cons, Bool.and_eq_true] at h ⊢
      rw [List.countP_cons] at hlax
      cases hc : c.isLax with
      | true =>
        -- The rank by which the one lax range holds will do, for there is no other.
        have hrest : rest.countP isLax = 0 := by
          simp only [hc, if_true] at hlax
          omega
        cases c with
        | rank r lax =>
          obtain rfl : lax = true := hc
          obtain ⟨k, hk, hkr⟩ := List.any_eq_true.mp h.1
          exact ⟨k, hk, hkr, (f.all_holdsAt_of_countP_eq_zero hrest k).trans h.2⟩
        | _ => cases hc
      | false =>
        obtain ⟨k, hk, hrest⟩ := ih (Nat.le_of_add_right_le hlax) h.2
        exact ⟨k, hk, (f.holdsAt_of_not_lax hc k).trans h.1, hrest⟩
  · rintro ⟨k, hk, h⟩
    rw [List.all_eq_true] at h ⊢
    exact fun c hc => holds_of_holdsAt hk (h c hc)

end WordFacts

/-! ## §2 Lax ranges in a normal form -/

theorem Condition.isLax_of_ranged? {c : Condition} (h : c.ranged? = none) : c.isLax = false := by
  cases c with
  | rank r lax => cases h
  | _ => rfl

/-- **An attribute is narrowed where it stands**, or it comes last. -/
theorem RangeList.map_fst_narrow {ranges ranges' : RangeList} {a : RangedAttribute} {r : Bounds}
    (h : ranges.narrow a r = some ranges') :
    ranges'.map (·.1) =
      if a ∈ ranges.map (·.1) then ranges.map (·.1) else ranges.map (·.1) ++ [a] := by
  induction ranges generalizing ranges' with
  | nil =>
    unfold narrow at h
    split at h
    · cases h
    · cases h
      rfl
  | cons first rest ih =>
    obtain ⟨b, s⟩ := first
    unfold narrow at h
    split at h
    · next hba =>
      obtain ⟨both, _, rfl⟩ := Option.map_eq_some_iff.mp h
      simp [hba]
    · next hba =>
      obtain ⟨rest', hrest, rfl⟩ := Option.map_eq_some_iff.mp h
      rw [List.map_cons, ih hrest]
      -- A new attribute comes last, unless it is among the rest.
      by_cases ha : a ∈ rest.map (·.1) <;> simp_all [eq_comm]

theorem RangeList.nodup_narrow {ranges ranges' : RangeList} {a : RangedAttribute} {r : Bounds}
    (h : ranges.narrow a r = some ranges') (hnodup : (ranges.map (·.1)).Nodup) :
    (ranges'.map (·.1)).Nodup := by
  rw [map_fst_narrow h]
  split
  · exact hnodup
  · next hnew => exact List.Nodup.append hnodup (List.nodup_singleton a) (by simpa using hnew)

/-- The ranges of a draft are of different attributes. -/
theorem Draft.nodup_add {d d' : Draft} {c : Condition} (h : d.add c = some d')
    (hnodup : (d.ranges.map (·.1)).Nodup) : (d'.ranges.map (·.1)).Nodup := by
  cases hr : c.upper.ranged? with
  | some range =>
    obtain ⟨a, r⟩ := range
    rw [add_of_ranged hr] at h
    obtain ⟨ranges, hnarrow, rfl⟩ := Option.map_eq_some_iff.mp h
    exact RangeList.nodup_narrow hnarrow hnodup
  | none =>
    rw [add_of_not_ranged hr] at h
    -- Only a length that is taken from a text adds a range here.
    obtain ⟨ranges, hhinted, rfl⟩ := Option.map_eq_some_iff.mp h
    unfold hintedRanges at hhinted
    split at hhinted
    · exact RangeList.nodup_narrow hhinted hnodup
    · cases hhinted
      exact hnodup

theorem Draft.nodup_foldlM_add (conditions : List Condition) {d d' : Draft}
    (h : conditions.foldlM Draft.add d = some d') (hnodup : (d.ranges.map (·.1)).Nodup) :
    (d'.ranges.map (·.1)).Nodup := by
  induction conditions generalizing d with
  | nil =>
    cases h
    exact hnodup
  | cons c rest ih =>
    obtain ⟨next, hnext, hrest⟩ := Option.bind_eq_some_iff.mp h
    exact ih hrest (nodup_add hnext hnodup)

/-- **A normal form has one lax range at most.** -/
theorem SearchSpec.countP_isLax_of_normalise {spec normal : SearchSpec}
    (h : spec.normalise = some normal) : normal.conditions.countP isLax ≤ 1 := by
  obtain ⟨d, hd, rfl⟩ := Option.map_eq_some_iff.mp h
  have hempty : Draft.empty.IsDraftOf spec.conditions :=
    ⟨by simp [Draft.empty], by simp [Draft.empty]⟩
  have hothers : d.others.countP isLax = 0 := by
    refine List.countP_eq_zero.mpr fun c hc => ?_
    have hranged := ((hempty.foldlM_add _ (fun _ hc => hc) hd).others c hc).1
    simp [isLax_of_ranged? hranged]
  -- The lax condition is one attribute of the ranges, and no attribute comes twice.
  have hranges : (d.ranges.map fun e => e.1.condition e.2).countP isLax =
      (d.ranges.map (·.1)).count (.rank true) := by
    rw [List.count, List.countP_map, List.countP_map]
    refine List.countP_congr fun e _ => ?_
    obtain ⟨a, r⟩ := e
    cases a <;> simp [RangedAttribute.condition, isLax]
  have hnodup := Draft.nodup_foldlM_add spec.conditions hd (by simp [Draft.empty])
  have hone := List.nodup_iff_count_le_one.mp hnodup (.rank true)
  show (d.others ++ d.ranges.map fun e => e.1.condition e.2).countP isLax ≤ 1
  rw [List.countP_append, hothers, hranges]
  omega

/-! ## §3 What a normal form means -/

namespace WordFacts

/-- **A normal form holds exactly if one tied rank does** for all lax ranges of the conditions. So
it never holds when the conditions do not, and with one lax range at most it holds just when they
do. -/
theorem normalise_iff (f : WordFacts) (spec : SearchSpec) :
    ((∃ normal, spec.normalise = some normal ∧ normal.conditions.all f.holds = true) ↔
      ∃ k ∈ f.tie, spec.conditions.all (f.holdsAt k) = true) ∧
    ((∃ normal, spec.normalise = some normal ∧ normal.conditions.all f.holds = true) →
      spec.conditions.all f.holds = true) ∧
    (spec.conditions.countP isLax ≤ 1 →
      ((∃ normal, spec.normalise = some normal ∧ normal.conditions.all f.holds = true) ↔
        spec.conditions.all f.holds = true)) := by
  have hiff : (∃ normal, spec.normalise = some normal ∧ normal.conditions.all f.holds = true) ↔
      ∃ k ∈ f.tie, spec.conditions.all (f.holdsAt k) = true := by
    -- At each rank of the tie lax and strict ranges mean the same, so the draft says them together.
    have hspec := fun k => SearchSpec.normalise_spec (f.soundReading_holdsAt k) spec
      (.inl (f.laxMeets_holdsAt k))
    cases hnormal : spec.normalise with
    | none =>
      simp only [hnormal, Option.elim_none] at hspec
      simp [← hspec]
    | some normal =>
      simp only [hnormal, Option.elim_some] at hspec
      simp only [Option.some.injEq, exists_eq_left',
        f.all_holds_iff (SearchSpec.countP_isLax_of_normalise hnormal), hspec]
  refine ⟨hiff, ?_, fun hlax => hiff.trans (f.all_holds_iff hlax).symm⟩
  intro hnormal
  obtain ⟨k, hk, hall⟩ := hiff.mp hnormal
  rw [List.all_eq_true] at hall ⊢
  exact fun c hc => holds_of_holdsAt hk (hall c hc)

/-- **Two lax ranges are lost**: a word that ties for the ranks 1 and 2 meets the range of each, but
the two ranges share no rank. -/
theorem normalise_of_two_lax_ranges :
    ∃ f : WordFacts, ([.rank ⟨1, 1⟩ true, .rank ⟨2, 2⟩ true] : List Condition).all f.holds = true ∧
      (SearchSpec.all [.rank ⟨1, 1⟩ true, .rank ⟨2, 2⟩ true]).normalise = none :=
  ⟨{ word := [0x45, 0x41, 0x54], vowels := 2, distinct := 3, points := 3, anagrams := 2, rank := 1,
     firstTied := 1, lastTied := 2, first_le := by decide, le_last := by decide,
     others := fun _ => false, others_upper := fun _ => rfl }, by decide, by decide⟩

end WordFacts

end WordStudy
