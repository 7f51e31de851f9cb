import WordStudy.Word.Basic

/-!
# The order of words

Words are ordered by their bytes, a start of a word before the word. A list is **ascending** if
each of its words comes strictly before all that follow, so that it has no word twice and is
determined by its members: two ascending lists of the same words are one list.
-/

namespace WordStudy

/-! ## §1 Sorting by an order -/

section Orders

variable {α β : Type} {cmp : α → α → Ordering}

theorem isLE_total [Std.OrientedCmp cmp] (a b : α) :
    ((cmp a b).isLE || (cmp b a).isLE) = true := by
  have hswap : cmp b a = (cmp a b).swap := Std.OrientedCmp.eq_swap
  rw [hswap]
  cases cmp a b <;> rfl

/-- What comes no later than something different comes before it. -/
theorem eq_lt_of_isLE_of_ne [Std.LawfulEqCmp cmp] {a b : α} (h : (cmp a b).isLE = true)
    (hne : a ≠ b) : cmp a b = .lt := by
  cases hab : cmp a b with
  | lt => rfl
  | eq => exact absurd (Std.LawfulEqCmp.eq_of_compare hab) hne
  | gt => simp [hab] at h

variable [Std.TransCmp cmp]

/-- **Sorting by a key** puts the keys in order. -/
theorem pairwise_mergeSort_on (f : β → α) (l : List β) :
    (l.mergeSort fun a b => (cmp (f a) (f b)).isLE).Pairwise
      fun a b => (cmp (f a) (f b)).isLE = true :=
  List.pairwise_mergeSort (fun _ _ _ => Std.TransCmp.isLE_trans) (fun a b => isLE_total (f a) (f b)) l

/-- **Sorting what is not repeated** gives a list that is strictly in order. -/
theorem pairwise_mergeSort_of_nodup [Std.LawfulEqCmp cmp] {l : List α} (h : l.Nodup) :
    (l.mergeSort fun a b => (cmp a b).isLE).Pairwise fun a b => cmp a b = .lt := by
  have hsorted : (l.mergeSort fun a b => (cmp a b).isLE).Pairwise
      fun a b => (cmp a b).isLE = true := pairwise_mergeSort_on id l
  have hnodup := h.perm (List.mergeSort_perm l fun a b => (cmp a b).isLE).symm
  refine List.Pairwise.imp ?_ (hsorted.and hnodup)
  rintro a b ⟨hle, hne⟩
  exact eq_lt_of_isLE_of_ne hle hne

end Orders

namespace Word

/-! ## §2 Laws of the order -/

/-- The order is the one of byte lists. -/
instance : Std.TransCmp order := inferInstanceAs (Std.TransCmp (compare (α := List UInt8)))

instance : Std.LawfulEqCmp order := inferInstanceAs (Std.LawfulEqCmp (compare (α := List UInt8)))

@[simp] theorem order_nil_cons (b : UInt8) (w : Word) : order [] (b :: w) = .lt := by
  simp [order]

/-- The first byte decides unless it is the same. -/
theorem order_cons_cons (b c : UInt8) (v w : Word) :
    order (b :: v) (c :: w) = (compare b c).then (order v w) := by
  simp [order]

@[simp] theorem order_cons_self (b : UInt8) (v w : Word) :
    order (b :: v) (b :: w) = order v w := by
  rw [order_cons_cons, Std.ReflOrd.compare_self]
  rfl

/-- A word with a smaller first byte comes first. -/
theorem order_of_first_lt {b c : UInt8} (h : b < c) (v w : Word) :
    order (b :: v) (c :: w) = .lt := by
  rw [order_cons_cons, Std.compare_eq_lt.mpr h]
  rfl

@[simp] theorem order_self (w : Word) : order w w = .eq := Std.ReflOrd.compare_self

theorem eq_of_order_eq {v w : Word} (h : order v w = .eq) : v = w :=
  Std.LawfulEqOrd.eq_of_compare h

theorem order_trans {u v w : Word} (h : order u v = .lt) (h' : order v w = .lt) :
    order u w = .lt := Std.TransCmp.lt_trans h h'

/-! ## §3 Ascending lists -/

/-- **Each word comes strictly before all that follow.** -/
def Ascending (words : List Word) : Prop := words.Pairwise fun v w => order v w = .lt

/-- An ascending list has no word twice. -/
theorem Ascending.nodup {words : List Word} (h : Ascending words) : words.Nodup :=
  List.Pairwise.imp (fun {v w} hlt heq => by simp [heq] at hlt) h

theorem Ascending.filter {words : List Word} (h : Ascending words) (p : Word → Bool) :
    Ascending (words.filter p) := List.Pairwise.filter p h

/-- Putting one byte before every word keeps the order. -/
theorem Ascending.map_cons {words : List Word} (h : Ascending words) (b : UInt8) :
    Ascending (words.map (b :: ·)) :=
  List.Pairwise.map _ (fun v w hlt => by simpa using hlt) h

/-- **An ascending list is determined by its members.** -/
theorem Ascending.eq_of_mem_iff {xs ys : List Word} (hx : Ascending xs) (hy : Ascending ys)
    (h : ∀ w, w ∈ xs ↔ w ∈ ys) : xs = ys := by
  have hperm : xs.Perm ys := (List.perm_ext_iff_of_nodup hx.nodup hy.nodup).mpr h
  refine hperm.eq_of_pairwise ?_ hx hy
  -- No two words come before one another.
  intro v w _ _ hvw hwv
  have hcycle := order_trans hvw hwv
  simp at hcycle

/-! ## §4 Sorting -/

theorem mem_sort {words : List Word} {w : Word} : w ∈ sort words ↔ w ∈ words :=
  List.mem_mergeSort

/-- Sorting words of which none is repeated gives an ascending list. -/
theorem ascending_sort {words : List Word} (h : words.Nodup) : Ascending (sort words) :=
  pairwise_mergeSort_of_nodup h

/-! ## §5 Sets of words -/

/-- What a set contains when the keys of a list are put in. -/
theorem contains_foldl_insert {α : Type} (key : α → Word) (l : List α) (set : Std.TreeMap Word Unit)
    (w : Word) :
    (l.foldl (fun set a => set.insert (key a) ()) set).contains w =
      (set.contains w || l.any (key · == w)) := by
  induction l generalizing set with
  | nil => simp
  | cons a l ih =>
    have hkey : (compare (key a) w == .eq) = (key a == w) := by
      rw [Bool.eq_iff_iff, beq_iff_eq, beq_iff_eq, Std.LawfulEqOrd.compare_eq_iff_eq]
    rw [List.foldl_cons, ih, Std.TreeMap.contains_insert, hkey, List.any_cons]
    ac_rfl

end Word

end WordStudy
