import Mathlib.Data.Nat.Choose.Bounds
import Mathlib.Data.Nat.Find
import WordStudy.Tiles.Draws

/-!
# Binomial coefficients in 128 bits

A coefficient is computed by multiplying and dividing in turn, in 128 bits, and is capped only at
the end. As long as the products fit, every division is exact and the number behind so many steps is
the coefficient of so many. The products **grow from step to step**, so that all of them fit if the last
one does, and the first that does not is really formed.
-/

namespace WordStudy

open Text

/-! ## §1 The steps -/

/-- The product of a step is a multiple of the next coefficient. -/
theorem choose_mul_sub (n i : Nat) : n.choose i * (n - i) = n.choose (i + 1) * (i + 1) :=
  (Nat.choose_succ_right_eq n i).symm

/-- **While the products fit, the steps give the coefficients.** -/
theorem chooseSteps_eq_choose (overflow : Overflow) {n steps : Nat}
    (hfits : ∀ i < steps, n.choose i * (n - i) ≤ maxWord128) :
    chooseSteps overflow n steps = some (n.choose steps) := by
  induction steps with
  | zero => rw [chooseSteps_zero, Nat.choose_zero_right]
  | succ steps ih =>
    have hbefore := ih fun i hi => hfits i (Nat.lt_succ_of_lt hi)
    have hlast := hfits steps (Nat.lt_succ_self steps)
    rw [chooseSteps_succ, hbefore, Option.bind_eq_bind, Option.bind_some, Overflow.fit?_of_le hlast,
      Option.bind_some, choose_mul_sub]
    exact congrArg some (Nat.mul_div_cancel _ (Nat.succ_pos steps))

/-- A run that stopped at a step does not get to a later one. -/
theorem chooseSteps_eq_none_of_le {overflow : Overflow} {n i steps : Nat} (hle : i ≤ steps)
    (h : chooseSteps overflow n i = none) : chooseSteps overflow n steps = none := by
  induction steps, hle using Nat.le_induction with
  | base => exact h
  | succ steps _ ih => rw [chooseSteps_succ, ih, Option.bind_eq_bind, Option.bind_none]

/-- **Numbers that stop get to the last step exactly if all products fit.** -/
theorem chooseSteps_stops (n steps : Nat) :
    chooseSteps .stops n steps =
      if ∀ i < steps, n.choose i * (n - i) ≤ maxWord128 then some (n.choose steps) else none := by
  split
  · next hfits => exact chooseSteps_eq_choose .stops hfits
  · next hover =>
    -- The products before the first one that does not fit are exact, and there the run stops.
    push Not at hover
    obtain ⟨hi, hlarge⟩ := Nat.find_spec hover
    have hbefore : ∀ j < Nat.find hover, n.choose j * (n - j) ≤ maxWord128 := fun j hj =>
      Nat.le_of_not_lt fun hlt => Nat.find_min hover hj ⟨hj.trans hi, hlt⟩
    refine chooseSteps_eq_none_of_le (Nat.succ_le_of_lt hi) ?_
    rw [chooseSteps_succ, chooseSteps_eq_choose .stops hbefore, Option.bind_eq_bind, Option.bind_some,
      Overflow.stops_fit?, if_neg (Nat.not_le_of_lt hlarge), Option.bind_none]

/-! ## §2 The greatest product -/

/-- Up to the half, **each product is at least as great as the one before**. -/
theorem choose_mul_sub_le_succ {n i : Nat} (h : 2 * (i + 1) ≤ n) :
    n.choose i * (n - i) ≤ n.choose (i + 1) * (n - (i + 1)) := by
  -- Both products have the coefficient between them, once with `i + 1`, once with the rest.
  rw [choose_mul_sub]
  exact Nat.mul_le_mul_left _ (by omega)

theorem choose_mul_sub_mono {n i j : Nat} (hij : i ≤ j) (hj : 2 * j ≤ n) :
    n.choose i * (n - i) ≤ n.choose j * (n - j) := by
  induction j, hij using Nat.le_induction with
  | base => exact Nat.le_refl _
  | succ j _ ih => exact (ih (by omega)).trans (choose_mul_sub_le_succ hj)

/-- **All products fit if the last one does.** -/
theorem products_fit_iff {n steps : Nat} (hhalf : 2 * steps ≤ n) :
    (∀ i < steps, n.choose i * (n - i) ≤ maxWord128) ↔ steps * n.choose steps ≤ maxWord128 := by
  cases steps with
  | zero => simp
  | succ last =>
    rw [Nat.mul_comm, ← choose_mul_sub]
    constructor
    · intro hfits
      exact hfits last (Nat.lt_succ_self last)
    · intro hlast i hi
      exact (choose_mul_sub_mono (Nat.le_of_lt_succ hi) (by omega)).trans hlast

/-! ## §3 The coefficient -/

theorem choose_min_sub {n k : Nat} (h : k ≤ n) : n.choose (min k (n - k)) = n.choose k := by
  rcases Nat.le_total k (n - k) with hk | hk
  · rw [Nat.min_eq_left hk]
  · rw [Nat.min_eq_right hk, Nat.choose_symm h]

/-- While the products fit, the coefficient is exact up to the cap. -/
theorem choose_eq_min (overflow : Overflow) {n k : Nat}
    (hfits : ∀ i < min k (n - k), n.choose i * (n - i) ≤ maxWord128) :
    choose overflow n k = some (min (n.choose k) maxWord64) := by
  unfold choose
  split
  · next hlt =>
    rw [Nat.choose_eq_zero_of_lt hlt]
    rfl
  · next hle =>
    rw [chooseSteps_eq_choose overflow hfits, choose_min_sub (Nat.le_of_not_lt hle)]
    rfl

/-- Numbers up to 120 have coefficients whose products fit. -/
theorem choose_eq_min_of_le (overflow : Overflow) {n : Nat} (h : n ≤ 120) (k : Nat) :
    choose overflow n k = some (min (n.choose k) maxWord64) := by
  refine choose_eq_min overflow fun i _ => ?_
  calc n.choose i * (n - i)
      ≤ 2 ^ n * 120 := Nat.mul_le_mul (Nat.choose_le_two_pow n i) (by omega)
    _ ≤ 2 ^ 120 * 120 := Nat.mul_le_mul_right _ (Nat.pow_le_pow_right (by decide) h)
    _ ≤ maxWord128 := by decide

/-- The products that a coefficient needs all fit if the last one does. -/
theorem products_of_choose_fit_iff (n k : Nat) :
    (∀ i < min k (n - k), n.choose i * (n - i) ≤ maxWord128) ↔
      min k (n - k) * n.choose k ≤ maxWord128 := by
  rw [products_fit_iff (by omega)]
  rcases Nat.lt_or_ge n k with hlt | hle
  · -- There are no steps, and the coefficient is zero.
    rw [Nat.sub_eq_zero_of_le hlt.le, Nat.min_zero, Nat.zero_mul, Nat.zero_mul]
  · rw [choose_min_sub hle]

/-- **The coefficient as it is computed, for all numbers.** The steps are as many as the smaller of
`k` and `n - k`, and the greatest of their products is that number of steps times the coefficient.
Where overflow stops the run, there is a result exactly if this product has at most 128 bits: the
binomial coefficient or, if that is greater, the greatest number of 64 bits. In this case the result
is the same where numbers wrap round, no product wraps, and every division is exact. -/
theorem choose_of_products (n k : Nat) :
    choose .stops n k =
      (if min k (n - k) * n.choose k ≤ maxWord128 then some (min (n.choose k) maxWord64)
        else none) ∧
    (min k (n - k) * n.choose k ≤ maxWord128 → ∀ overflow,
      choose overflow n k = some (min (n.choose k) maxWord64) ∧
      ∀ i < min k (n - k), ∃ before, chooseSteps overflow n i = some before ∧
        before * (n - i) ≤ maxWord128 ∧ i + 1 ∣ before * (n - i)) := by
  have hexact (hfits : min k (n - k) * n.choose k ≤ maxWord128) :=
    (products_of_choose_fit_iff n k).mpr hfits
  constructor
  · split
    · next hfits => exact choose_eq_min .stops (hexact hfits)
    · next hover =>
      -- Without any product there is none that could be too great.
      have hle : ¬ n < k := fun hlt => hover (by simp [Nat.choose_eq_zero_of_lt hlt])
      rw [choose, if_neg hle, chooseSteps_stops,
        if_neg (mt (products_of_choose_fit_iff n k).mp hover), Option.map_none]
  · intro hfits overflow
    refine ⟨choose_eq_min overflow (hexact hfits), fun i hi => ⟨n.choose i, ?_, ?_, ?_⟩⟩
    -- The steps before are exact as well, as their products are the smaller ones.
    · exact chooseSteps_eq_choose overflow fun j hj => hexact hfits j (hj.trans hi)
    · exact hexact hfits i hi
    · rw [choose_mul_sub]
      exact Nat.dvd_mul_left ..

/-- **Numbers of 32 bits do not suffice** for the products to fit: of two large ones, the fifth
product has more than 128 bits, and the run stops. -/
theorem choose_of_large_numbers :
    (4293212470 ≤ maxWord32 ∧ 1134389 ≤ maxWord32 ∧ choose .stops 4293212470 1134389 = none) ∧
    ¬ ∀ n ≤ maxWord32, ∀ k ≤ maxWord32, choose .stops n k = some (min (n.choose k) maxWord64) := by
  have hnone : choose .stops 4293212470 1134389 = none := by
    have hfifth : chooseSteps .stops 4293212470 5 = none := by decide +kernel
    have hsteps : min 1134389 (4293212470 - 1134389) = 1134389 := by decide
    rw [choose, if_neg (by decide), hsteps, chooseSteps_eq_none_of_le (by decide) hfifth,
      Option.map_none]
  refine ⟨⟨by decide, by decide, hnone⟩, fun hall => ?_⟩
  have hsome := hall 4293212470 (by decide) 1134389 (by decide)
  rw [hnone] at hsome
  cases hsome

/-! ## §4 Numbers that stop and numbers that wrap round -/

/-- Numbers that wrap round give a result, and numbers that stop give **the same one or none**. -/
def StopsOrAgrees (stopped wrapped : Option Nat) : Prop :=
  ∃ x, wrapped = some x ∧ ∀ y ∈ stopped, y = x

theorem StopsOrAgrees.refl (x : Nat) : StopsOrAgrees (some x) (some x) :=
  ⟨x, rfl, fun _ hy => (Option.some.inj hy).symm⟩

theorem StopsOrAgrees.bind {stopped wrapped : Option Nat} {f g : Nat → Option Nat}
    (h : StopsOrAgrees stopped wrapped) (hnext : ∀ x, StopsOrAgrees (f x) (g x)) :
    StopsOrAgrees (stopped >>= f) (wrapped >>= g) := by
  obtain ⟨x, rfl, hx⟩ := h
  obtain ⟨z, hz, hfz⟩ := hnext x
  refine ⟨z, hz, fun y hy => ?_⟩
  obtain ⟨x', hx', hy⟩ := Option.bind_eq_some_iff.mp hy
  rw [hx x' hx'] at hy
  exact hfz y hy

/-- What holds of every step of a fold holds of the fold. -/
theorem StopsOrAgrees.foldlM {f g : Nat → Nat → Option Nat}
    (h : ∀ sum i, StopsOrAgrees (f sum i) (g sum i)) (places : List Nat) (sum : Nat) :
    StopsOrAgrees (places.foldlM f sum) (places.foldlM g sum) := by
  induction places generalizing sum with
  | nil => exact .refl sum
  | cons i places ih =>
    rw [List.foldlM_cons, List.foldlM_cons]
    exact (h sum i).bind ih

theorem stopsOrAgrees_fit? (greatest n : Nat) :
    StopsOrAgrees (Overflow.stops.fit? greatest n) (Overflow.wraps.fit? greatest n) := by
  refine ⟨n % (greatest + 1), Overflow.wraps_fit? .., fun y hy => ?_⟩
  rw [Overflow.stops_fit?, Option.mem_def, Option.ite_none_right_eq_some] at hy
  obtain ⟨hle, hy⟩ := hy
  rw [← Option.some.inj hy, Nat.mod_eq_of_lt (Nat.lt_succ_of_le hle)]

theorem stopsOrAgrees_chooseSteps (n steps : Nat) :
    StopsOrAgrees (chooseSteps .stops n steps) (chooseSteps .wraps n steps) := by
  induction steps with
  | zero => exact .refl 1
  | succ steps ih =>
    rw [chooseSteps_succ, chooseSteps_succ]
    exact ih.bind fun before => (stopsOrAgrees_fit? ..).bind fun product => .refl _

theorem stopsOrAgrees_choose (n k : Nat) :
    StopsOrAgrees (choose .stops n k) (choose .wraps n k) := by
  unfold choose
  split
  · exact .refl 0
  · rw [Option.map_eq_bind, Option.map_eq_bind]
    exact (stopsOrAgrees_chooseSteps ..).bind fun x => .refl _

end WordStudy
