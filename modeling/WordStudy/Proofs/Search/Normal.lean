import WordStudy.Search.Spec

/-!
# Normal forms keep their meaning

A conjunction is normalised without knowing what its conditions mean. It keeps its meaning under
every reading for which upper case makes no difference, implied lengths are really implied, and the
numbers in two ranges are those in what the ranges share. The **lax rank** is the one attribute of
which the last need not hold: a tie may meet two ranges without meeting what they share. One lax
range does no harm, for it is never intersected.
-/

namespace WordStudy

namespace Condition

/-- The condition is a lax range of ranks. -/
def isLax : Condition → Bool
  | rank _ lax => lax
  | _ => false

/-- **What a reading of conditions must respect** for a normal form to keep its meaning. -/
structure SoundReading (holds : Condition → Bool) : Prop where
  upper : ∀ c, holds c.upper = holds c
  hint : ∀ c r, c.lengthHint = some r → holds c = true → holds (.length r) = true
  narrow : ∀ a : RangedAttribute, a ≠ .rank true → ∀ r s,
    holds (a.condition (r.narrow s)) = (holds (a.condition r) && holds (a.condition s))
  empty : ∀ (a : RangedAttribute) r, r.isEmpty = true → holds (a.condition r) = false

/-- Lax ranges, too, are met together if what they share is met. -/
def LaxMeets (holds : Condition → Bool) : Prop :=
  ∀ r s, holds (.rank (r.narrow s) true) = (holds (.rank r true) && holds (.rank s true))

theorem eq_of_ranged? {c : Condition} {a : RangedAttribute} {r : Bounds}
    (h : c.ranged? = some (a, r)) : c = a.condition r := by
  cases c <;> simp only [ranged?, reduceCtorEq, Option.some.injEq, Prod.mk.injEq] at h <;>
    obtain ⟨rfl, rfl⟩ := h <;> rfl

@[simp] theorem isLax_upper (c : Condition) : c.upper.isLax = c.isLax := by
  cases c <;> rfl

end Condition

open Condition

/-! ## §1 Ranges -/

namespace RangeList

/-- The range list bounds the lax rank. -/
def hasLax (ranges : RangeList) : Bool := ranges.any fun (a, _) => a == .rank true

/-- **A range that is narrowed** holds what it held and what is asked of it. -/
theorem narrow_spec {holds : Condition → Bool} (h : SoundReading holds) {ranges : RangeList}
    {a : RangedAttribute} (hlax : a = .rank true → LaxMeets holds ∨ ranges.hasLax = false)
    (r : Bounds) :
    ((ranges.narrow a r).elim false fun ranges' =>
        ranges'.all fun (b, s) => holds (b.condition s)) =
      (ranges.all (fun (b, s) => holds (b.condition s)) && holds (a.condition r)) := by
  induction ranges with
  | nil =>
    unfold narrow
    split
    · next hempty => simp [h.empty a r hempty]
    · simp
  | cons first rest ih =>
    obtain ⟨b, s⟩ := first
    unfold narrow
    split
    · -- The attribute is bounded here already.
      next hba =>
      subst hba
      have hboth : holds (b.condition (s.narrow r)) =
          (holds (b.condition s) && holds (b.condition r)) := by
        by_cases hb : b = .rank true
        · rcases hlax hb with hmeets | hfresh
          · rw [hb]
            exact hmeets s r
          · simp [hasLax, hb] at hfresh
        · exact h.narrow b hb s r
      unfold Bounds.meet
      split
      -- The two ranges share no number, and what would be left is false.
      · next hempty =>
        rw [h.empty b _ hempty] at hboth
        simp only [Option.map_none, Option.elim_none, List.all_cons]
        rw [Bool.and_right_comm, ← hboth, Bool.false_and]
      · simp only [Option.map_some, Option.elim_some, List.all_cons, hboth]
        ac_rfl
    · have hrest := ih fun ha => (hlax ha).imp_right fun hall => by
        simp only [hasLax, List.any_cons, Bool.or_eq_false_iff] at hall
        exact hall.2
      rw [List.all_cons, Bool.and_assoc, ← hrest]
      cases narrow rest a r <;> simp

/-- Narrowing bounds no attribute but its own. -/
theorem hasLax_narrow {ranges ranges' : RangeList} {a : RangedAttribute} {r : Bounds}
    (h : ranges.narrow a r = some ranges') (hlax : ranges'.hasLax = true) :
    ranges.hasLax = true ∨ a = .rank true := by
  induction ranges generalizing ranges' with
  | nil =>
    unfold narrow at h
    split at h
    · cases h
    · cases h
      simpa [hasLax] using hlax
  | cons first rest ih =>
    obtain ⟨b, s⟩ := first
    unfold narrow at h
    split at h
    · obtain ⟨both, _, rfl⟩ := Option.map_eq_some_iff.mp h
      exact .inl (by simpa [hasLax] using hlax)
    · obtain ⟨rest', hrest, rfl⟩ := Option.map_eq_some_iff.mp h
      simp only [hasLax, List.any_cons, Bool.or_eq_true] at hlax ⊢
      rcases hlax with hfirst | hlax
      · exact .inl (.inl hfirst)
      · rcases ih hrest hlax with hold | ha
        · exact .inl (.inr hold)
        · exact .inr ha

end RangeList

/-! ## §2 Drafts -/

namespace Draft

/-- The draft bounds the lax rank. -/
def hasLax (d : Draft) : Bool := d.ranges.hasLax

/-- Every condition of the draft holds. -/
def holdsAll (holds : Condition → Bool) (d : Draft) : Bool := d.conditions.all holds

theorem holdsAll_eq (holds : Condition → Bool) (d : Draft) :
    d.holdsAll holds =
      (d.others.all holds && d.ranges.all fun (a, r) => holds (a.condition r)) := by
  simp [holdsAll, conditions, List.all_map, Function.comp_def]

/-- The ranges of a draft with those that a condition implies. -/
def hintedRanges (d : Draft) (c : Condition) : Option RangeList :=
  match c.lengthHint with
  | some r => d.ranges.narrow .length r
  | none => some d.ranges

/-- A condition on a number narrows a range. -/
theorem add_of_ranged {c : Condition} {a : RangedAttribute} {r : Bounds}
    (h : c.upper.ranged? = some (a, r)) (d : Draft) :
    d.add c = (d.ranges.narrow a r).map fun ranges => { d with ranges } := by
  simp only [add, h]

/-- Any other condition is kept, once, with the lengths that it implies. -/
theorem add_of_not_ranged {c : Condition} (h : c.upper.ranged? = none) (d : Draft) :
    d.add c = (d.hintedRanges c.upper).map fun ranges =>
      { others := if d.others.contains c.upper then d.others else d.others ++ [c.upper], ranges } := by
  simp only [add, h]
  rfl

/-- What an implied length adds is implied. -/
theorem hintedRanges_spec {holds : Condition → Bool} (h : SoundReading holds) (d : Draft)
    (c : Condition) :
    ((d.hintedRanges c).elim false fun ranges =>
        ranges.all (fun (a, r) => holds (a.condition r)) && holds c) =
      (d.ranges.all (fun (a, r) => holds (a.condition r)) && holds c) := by
  unfold hintedRanges
  split
  · next r hr =>
    have hnarrow := d.ranges.narrow_spec h (a := .length) (by simp) r
    have himplied : (holds (RangedAttribute.length.condition r) && holds c) = holds c := by
      cases hc : holds c with
      | true => exact congrArg (· && true) (h.hint c r hr hc)
      | false => simp
    rw [← himplied, ← Bool.and_assoc (List.all _ _), ← hnarrow]
    cases d.ranges.narrow .length r <;> simp [himplied]
  · rfl

/-- **A condition added** to a draft is asked for, and one that cannot be added cannot hold. -/
theorem add_spec {holds : Condition → Bool} (h : SoundReading holds) {d : Draft} {c : Condition}
    (hlax : c.isLax = true → LaxMeets holds ∨ d.hasLax = false) :
    ((d.add c).elim false (holdsAll holds)) = (d.holdsAll holds && holds c) := by
  rw [← h.upper c]
  cases hr : c.upper.ranged? with
  | some range =>
    -- A range narrows the one of its attribute.
    obtain ⟨a, r⟩ := range
    have hc := eq_of_ranged? hr
    have hfresh : a = .rank true → LaxMeets holds ∨ d.ranges.hasLax = false := by
      rintro rfl
      refine hlax ?_
      rw [← isLax_upper, hc]
      rfl
    have hnarrow := d.ranges.narrow_spec h hfresh r
    rw [add_of_ranged hr, hc, holdsAll_eq, Bool.and_assoc, ← hnarrow]
    cases d.ranges.narrow a r <;> simp [holdsAll_eq]
  | none =>
    have hhinted := d.hintedRanges_spec h c.upper
    have hothers : ((if d.others.contains c.upper then d.others else d.others ++ [c.upper]).all
        holds) = (d.others.all holds && holds c.upper) := by
      split
      -- A condition that is there already is not added, and it is asked for anyhow.
      · next hmem =>
        cases hc : holds c.upper with
        | true => simp
        | false =>
          simp only [Bool.and_false, List.all_eq_false]
          exact ⟨c.upper, List.contains_iff_mem.mp hmem, by simp [hc]⟩
      · simp
    rw [add_of_not_ranged hr, holdsAll_eq, Bool.and_assoc, ← hhinted]
    cases d.hintedRanges c.upper with
    | none => simp
    | some ranges =>
      simp only [Option.map_some, Option.elim_some, holdsAll_eq, hothers]
      cases holds c.upper <;> simp

/-- The lax rank is bounded only where a condition bounds it. -/
theorem hasLax_add {d d' : Draft} {c : Condition} (h : d.add c = some d')
    (hlax : d'.hasLax = true) : d.hasLax = true ∨ c.isLax = true := by
  cases hr : c.upper.ranged? with
  | some range =>
    obtain ⟨a, r⟩ := range
    rw [add_of_ranged hr] at h
    obtain ⟨ranges, hnarrow, rfl⟩ := Option.map_eq_some_iff.mp h
    rcases RangeList.hasLax_narrow hnarrow hlax with hold | ha
    · exact .inl hold
    · right
      rw [← isLax_upper, eq_of_ranged? hr, ha]
      rfl
  | none =>
    rw [add_of_not_ranged hr] at h
    obtain ⟨ranges, hhinted, rfl⟩ := Option.map_eq_some_iff.mp h
    unfold hintedRanges at hhinted
    split at hhinted
    · rcases RangeList.hasLax_narrow hhinted hlax with hold | ha
      · exact .inl hold
      · cases ha
    · cases hhinted
      exact .inl hlax

/-- **Conditions added one after the other** are asked for together, if lax ranges meet or at most
one condition bounds the lax rank. -/
theorem foldlM_add_spec {holds : Condition → Bool} (h : SoundReading holds)
    (conditions : List Condition) (d : Draft)
    (hlax : LaxMeets holds ∨ conditions.countP isLax + (if d.hasLax then 1 else 0) ≤ 1) :
    ((conditions.foldlM add d).elim false (holdsAll holds)) =
      (d.holdsAll holds && conditions.all holds) := by
  induction conditions generalizing d with
  | nil => simp
  | cons c rest ih =>
    -- The count and the flag together stay at one at most: a lax condition moves from the former
    -- to the latter.
    have hfresh : c.isLax = true → LaxMeets holds ∨ d.hasLax = false := by
      refine fun hc => hlax.imp_right fun hcount => ?_
      cases hd : d.hasLax with
      | false => rfl
      | true =>
        simp only [List.countP_cons, hc, hd, if_true] at hcount
        omega
    have hadd := add_spec h hfresh
    rw [List.foldlM_cons, List.all_cons, ← Bool.and_assoc, ← hadd]
    cases hc : d.add c with
    | none => simp
    | some d' =>
      have hrest : LaxMeets holds ∨ rest.countP isLax + (if d'.hasLax then 1 else 0) ≤ 1 := by
        refine hlax.imp_right fun hcount => ?_
        rw [List.countP_cons] at hcount
        split
        · next hd' =>
          rcases hasLax_add hc hd' with hd | hlaxc
          · simp only [hd, if_true] at hcount
            omega
          · simp only [hlaxc, if_true] at hcount
            omega
        · omega
      simpa using ih d' hrest

end Draft

/-! ## §3 Normal forms -/

namespace SearchSpec

/-- **A normal form keeps its meaning**, and where there is none, the conditions cannot all hold. -/
theorem normalise_spec {holds : Condition → Bool} (h : SoundReading holds) (spec : SearchSpec)
    (hlax : LaxMeets holds ∨ spec.conditions.countP isLax ≤ 1) :
    (spec.normalise.elim false fun normal => normal.conditions.all holds) =
      spec.conditions.all holds := by
  have hfold := Draft.foldlM_add_spec h spec.conditions .empty hlax
  have hempty : Draft.empty.holdsAll holds = true := rfl
  rw [hempty, Bool.true_and] at hfold
  rw [← hfold, normalise]
  cases spec.conditions.foldlM Draft.add Draft.empty <;> rfl

end SearchSpec

/-! ## §4 What a normal form is made of -/

namespace RangeList

/-- **No range that is narrowed is left empty.** -/
theorem isEmpty_of_narrow {ranges ranges' : RangeList} {a : RangedAttribute} {r : Bounds}
    (h : ranges.narrow a r = some ranges') (hranges : ∀ e ∈ ranges, e.2.isEmpty = false) :
    ∀ e ∈ ranges', e.2.isEmpty = false := by
  induction ranges generalizing ranges' with
  | nil =>
    unfold narrow at h
    split at h
    · cases h
    · next hsome =>
      cases h
      simpa using hsome
  | cons first rest ih =>
    obtain ⟨b, s⟩ := first
    have hrest : ∀ e ∈ rest, e.2.isEmpty = false := fun e he => hranges e (by simp [he])
    unfold narrow at h
    split at h
    · obtain ⟨both, hboth, rfl⟩ := Option.map_eq_some_iff.mp h
      unfold Bounds.meet at hboth
      split at hboth
      · cases hboth
      · next hsome =>
        cases hboth
        intro e he
        rcases List.mem_cons.mp he with rfl | he
        · simpa using hsome
        · exact hrest e he
    · obtain ⟨narrowed, hnarrowed, rfl⟩ := Option.map_eq_some_iff.mp h
      intro e he
      rcases List.mem_cons.mp he with rfl | he
      · exact hranges _ (by simp)
      · exact ih hnarrowed hrest e he

end RangeList

/-- **A condition in a normal form**: one of the given conditions in upper case, or a range that is
not empty. -/
def Condition.ComesFrom (conditions : List Condition) (c : Condition) : Prop :=
  (c.ranged? = none ∧ ∃ given ∈ conditions, c = given.upper) ∨
    ∃ (a : RangedAttribute) (r : Bounds), c = a.condition r ∧ r.isEmpty = false

theorem Condition.ComesFrom.mono {conditions others : List Condition} {c : Condition}
    (h : c.ComesFrom conditions) (hsub : ∀ d ∈ conditions, d ∈ others) : c.ComesFrom others := by
  rcases h with ⟨hranged, given, hgiven, rfl⟩ | hrange
  · exact .inl ⟨hranged, given, hsub given hgiven, rfl⟩
  · exact .inr hrange

namespace Draft

/-- What a draft keeps comes from the conditions, and its ranges are not empty. -/
structure IsDraftOf (conditions : List Condition) (d : Draft) : Prop where
  others : ∀ c ∈ d.others, c.ranged? = none ∧ ∃ given ∈ conditions, c = given.upper
  ranges : ∀ e ∈ d.ranges, e.2.isEmpty = false

theorem IsDraftOf.add {conditions : List Condition} {d d' : Draft} (h : d.IsDraftOf conditions)
    {c : Condition} (hc : c ∈ conditions) (hadd : d.add c = some d') : d'.IsDraftOf conditions := by
  cases hr : c.upper.ranged? with
  | some range =>
    obtain ⟨a, r⟩ := range
    rw [add_of_ranged hr] at hadd
    obtain ⟨ranges, hnarrow, rfl⟩ := Option.map_eq_some_iff.mp hadd
    exact ⟨h.others, RangeList.isEmpty_of_narrow hnarrow h.ranges⟩
  | none =>
    rw [add_of_not_ranged hr] at hadd
    obtain ⟨ranges, hhinted, rfl⟩ := Option.map_eq_some_iff.mp hadd
    constructor
    · intro e he
      dsimp only at he
      split at he
      · exact h.others e he
      · rcases List.mem_append.mp he with he | he
        · exact h.others e he
        · obtain rfl := List.mem_singleton.mp he
          exact ⟨hr, c, hc, rfl⟩
    · unfold hintedRanges at hhinted
      split at hhinted
      · exact RangeList.isEmpty_of_narrow hhinted h.ranges
      · cases hhinted
        exact h.ranges

theorem IsDraftOf.foldlM_add {conditions : List Condition} (added : List Condition)
    {d d' : Draft} (h : d.IsDraftOf conditions) (hadded : ∀ c ∈ added, c ∈ conditions)
    (hfold : added.foldlM Draft.add d = some d') : d'.IsDraftOf conditions := by
  induction added generalizing d with
  | nil =>
    cases hfold
    exact h
  | cons c added ih =>
    obtain ⟨next, hnext, hrest⟩ := Option.bind_eq_some_iff.mp hfold
    exact ih (h.add (hadded c (by simp)) hnext) (fun c hc => hadded c (by simp [hc])) hrest

end Draft

/-- **A normal form makes nothing up.** -/
theorem SearchSpec.comesFrom_of_normalise {spec normal : SearchSpec}
    (h : spec.normalise = some normal) :
    ∀ c ∈ normal.conditions, c.ComesFrom spec.conditions := by
  obtain ⟨d, hd, rfl⟩ := Option.map_eq_some_iff.mp h
  have hempty : Draft.empty.IsDraftOf spec.conditions :=
    ⟨by simp [Draft.empty], by simp [Draft.empty]⟩
  have hdraft := hempty.foldlM_add spec.conditions (fun _ hc => hc) hd
  intro c hc
  rcases List.mem_append.mp hc with hother | hrange
  · exact .inl (hdraft.others c hother)
  · obtain ⟨⟨a, r⟩, hmem, rfl⟩ := List.mem_map.mp hrange
    exact .inr ⟨a, r, rfl, hdraft.ranges _ hmem⟩

end WordStudy
