import WordStudy.Search.Window
import WordStudy.Proofs.Word.Order

/-!
# Windows and case

The rank of a word is read off the word in upper case, so that a window keeps the same places
whatever the case of the words. Dropping the repeats of a sorted list leaves each key once, in
strictly ascending order.
-/

namespace WordStudy

/-! ## §1 Dropping repeats -/

section DropRepeats

variable {α β κ : Type} [DecidableEq κ] (key : α → κ)

@[simp] theorem dropRepeats_nil : dropRepeats key [] = [] := rfl

/-- Repeats are told by their keys alone. -/
theorem map_dropRepeats (f : α → β) (key' : β → κ) (hkey : ∀ a, key' (f a) = key a) (l : List α) :
    (dropRepeats key l).map f = dropRepeats key' (l.map f) := by
  have hgo (last : κ) (l : List α) :
      (dropRepeats.go key last l).map f = dropRepeats.go key' last (l.map f) := by
    induction l generalizing last with
    | nil => rfl
    | cons a l ih =>
      simp only [dropRepeats.go, List.map_cons, hkey]
      split
      · exact ih last
      · simp [ih]
  cases l with
  | nil => rfl
  | cons a l => simp [dropRepeats, hgo, hkey]

/-- **No key is lost** when repeats are dropped. -/
theorem mem_map_dropRepeats (l : List α) (k : κ) :
    k ∈ (dropRepeats key l).map key ↔ k ∈ l.map key := by
  -- The key of the last element stands for all that were dropped because of it.
  have hgo (last : κ) (l : List α) :
      k = last ∨ k ∈ (dropRepeats.go key last l).map key ↔ k = last ∨ k ∈ l.map key := by
    induction l generalizing last with
    | nil => rfl
    | cons a l ih =>
      simp only [dropRepeats.go]
      split
      · next ha =>
        rw [ih last, List.map_cons, List.mem_cons, ha]
        grind
      · rw [List.map_cons, List.map_cons, List.mem_cons, List.mem_cons, ih (key a)]
  cases l with
  | nil => rfl
  | cons a l => simpa [dropRepeats] using hgo (key a) l

variable {cmp : κ → κ → Ordering} [Std.TransCmp cmp] [Std.LawfulEqCmp cmp]

/-- **Behind a sorted list, repeats are gone**: what is left is strictly ascending. -/
theorem pairwise_dropRepeats {l : List α}
    (h : l.Pairwise fun a b => (cmp (key a) (key b)).isLE = true) :
    (dropRepeats key l).Pairwise fun a b => cmp (key a) (key b) = .lt := by
  -- What is left lies behind the last key, strictly.
  have hgo (last : κ) (l : List α) (hlast : ∀ a ∈ l, (cmp last (key a)).isLE = true)
      (hl : l.Pairwise fun a b => (cmp (key a) (key b)).isLE = true) :
      (∀ a ∈ dropRepeats.go key last l, cmp last (key a) = .lt) ∧
        (dropRepeats.go key last l).Pairwise fun a b => cmp (key a) (key b) = .lt := by
    induction l generalizing last with
    | nil => exact ⟨by simp [dropRepeats.go], .nil⟩
    | cons a l ih =>
      obtain ⟨ha, hl⟩ := List.pairwise_cons.mp hl
      simp only [dropRepeats.go]
      split
      · exact ih last (fun b hb => hlast b (by simp [hb])) hl
      · next hne =>
        obtain ⟨hrest, hpairwise⟩ := ih (key a) ha hl
        have hlt := eq_lt_of_isLE_of_ne (hlast a (by simp)) (Ne.symm hne)
        refine ⟨?_, List.pairwise_cons.mpr ⟨hrest, hpairwise⟩⟩
        intro b hb
        rcases List.mem_cons.mp hb with rfl | hb
        · exact hlt
        · exact Std.TransCmp.lt_trans hlt (hrest b hb)
  cases l with
  | nil => exact .nil
  | cons a l =>
    obtain ⟨ha, hl⟩ := List.pairwise_cons.mp h
    obtain ⟨hrest, hpairwise⟩ := hgo (key a) l ha hl
    exact List.pairwise_cons.mpr ⟨hrest, hpairwise⟩

end DropRepeats

/-! ## §2 Ranks in upper case -/

@[simp] theorem RankKey.ofWord_upper (bag : TileBag) (legacy : Bool) (w : Word) :
    ofWord bag legacy w.upper = ofWord bag legacy w := by
  simp [ofWord]

/-- **Words are ranked alike** in any case. -/
theorem rankWords_map_upper (bag : TileBag) (legacy : Bool) (words : List Word) :
    rankWords bag legacy (words.map Word.upper) =
      (rankWords bag legacy words).map fun (key, w) => (key, w.upper) := by
  unfold rankWords
  -- Keys decide the order and what is dropped, and they are read off the upper case.
  rw [map_dropRepeats (·.1) (fun x : RankKey × Word => (x.1, x.2.upper)) (·.1) (fun _ => rfl),
    List.map_mergeSort (f := fun x : RankKey × Word => (x.1, x.2.upper))
      (s := fun a b => RankKey.le a.1 b.1) (fun _ _ _ _ => rfl)]
  simp [Function.comp_def]

namespace RankWindow

/-- **A window keeps the same places** whatever the case of the words. -/
theorem keep_map_upper (window : RankWindow) (bag : TileBag) (words : List Word) :
    window.keep bag (words.map Word.upper) = (window.keep bag words).map Word.upper := by
  unfold keep
  simp only [List.length_map, rankWords_map_upper]
  split
  · rfl
  · simp [List.map_take, List.map_drop, Function.comp_def]

end RankWindow

end WordStudy
