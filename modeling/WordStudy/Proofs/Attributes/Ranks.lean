import Mathlib.Data.List.SplitBy
import WordStudy.Proofs.Attributes.Rows
import WordStudy.Proofs.Word.Order

/-!
# Ranks are counts

The rank of a word is one more than the number of words **ranked before it**, and the ranks of its
tie are bounded by the numbers of words with more draws and with no fewer. The rows are ranked by
runs of a sorted list; what they store are just these counts, each length for itself.
-/

namespace WordStudy

/-! ## §1 The order of ranks -/

namespace RankKey

theorem alphagramOrder_eq_compare : alphagramOrder = compare (α := Option (List UInt8)) := by
  funext a b
  cases a <;> cases b <;> rfl

instance : Std.TransCmp alphagramOrder := by
  rw [alphagramOrder_eq_compare]
  infer_instance

instance : Std.LawfulEqCmp alphagramOrder := by
  rw [alphagramOrder_eq_compare]
  infer_instance

/-- Comparing by what is read off a key is transitive. -/
theorem transCmp_on {α : Type} (cmp : α → α → Ordering) [Std.TransCmp cmp] (f : RankKey → α) :
    Std.TransCmp fun a b => cmp (f a) (f b) where
  eq_swap := Std.OrientedCmp.eq_swap
  isLE_trans := Std.TransCmp.isLE_trans

/-- The order compares one thing after the other. -/
theorem order_eq_compareLex : order =
    compareLex (fun a b => compare b.draws a.draws)
      (compareLex (fun a b => alphagramOrder a.alphagram b.alphagram)
        fun a b => Word.order a.word b.word) := rfl

instance : Std.TransCmp order := by
  have hdraws : Std.TransCmp fun a b : RankKey => compare b.draws a.draws :=
    transCmp_on (fun m n : Nat => compare n m) draws
  have halphagram := transCmp_on alphagramOrder alphagram
  have hword := transCmp_on Word.order word
  rw [order_eq_compareLex]
  infer_instance

instance : Std.LawfulEqCmp order where
  eq_of_compare := by
    intro a b h
    simp only [order, Ordering.then_eq_eq] at h
    obtain ⟨hdraws, halphagram, hword⟩ := h
    have hdraws' : b.draws = a.draws := Std.LawfulEqOrd.eq_of_compare hdraws
    have halphagram' : a.alphagram = b.alphagram := Std.LawfulEqCmp.eq_of_compare halphagram
    have hword' : a.word = b.word := Word.eq_of_order_eq hword
    cases a
    cases b
    simp_all

/-- A word that is ranked before another has **no fewer draws**. -/
theorem draws_le_of_order_eq_lt {a b : RankKey} (h : order a b = .lt) : b.draws ≤ a.draws := by
  simp only [order, Ordering.then_eq_lt] at h
  rcases h with hlt | ⟨heq, _⟩
  · exact Nat.le_of_lt (Nat.compare_eq_lt.mp hlt)
  · exact Nat.le_of_eq (Nat.compare_eq_eq.mp heq)

/-! ## §2 Counting -/

/-- **The ranks of a key among keys.** -/
def ranksAmong (keys : List RankKey) (k : RankKey) : Ranks where
  rank := keys.countP (fun a => order a k == .lt) + 1
  firstTied := keys.countP (fun a => decide (k.draws < a.draws)) + 1
  lastTied := keys.countP (fun a => decide (k.draws ≤ a.draws))

/-- Ranks do not depend on how the keys are listed. -/
theorem ranksAmong_congr {keys keys' : List RankKey} (h : keys.Perm keys') :
    ranksAmong keys = ranksAmong keys' := by
  funext k
  simp only [ranksAmong, h.countP_eq]

end RankKey

/-- **What holds up to some place and no further** holds of as many elements as lie before it. -/
theorem getElem_iff_lt_countP {α : Type} {p : α → Bool} {l : List α}
    (h : l.Pairwise fun a b => p b = true → p a = true) {i : Nat} (hi : i < l.length) :
    p l[i] = true ↔ i < l.countP p := by
  -- The first element decides: with the property it is counted, without it nothing is.
  induction l generalizing i with
  | nil => simp at hi
  | cons a l ih =>
    obtain ⟨ha, hl⟩ := List.pairwise_cons.mp h
    by_cases hp : p a = true
    · cases i with
      | zero => simp [hp]
      | succ i =>
        rw [List.countP_cons_of_pos hp, List.getElem_cons_succ, ih hl (by simpa using hi)]
        omega
    · -- Nothing that follows has the property.
      have hnone : ∀ b ∈ a :: l, ¬ p b = true := by
        intro b hb
        rcases List.mem_cons.mp hb with rfl | hb
        · exact hp
        · exact fun hpb => hp (ha b hb hpb)
      rw [List.countP_eq_zero.mpr hnone]
      simpa using hnone _ (List.getElem_mem hi)

/-- **Keys in the order of their ranks**, none of them twice. -/
def IsRanked (keys : List RankKey) : Prop := keys.Pairwise fun a b => RankKey.order a b = .lt

namespace IsRanked

variable {keys : List RankKey} {i j : Nat}

theorem draws_antitone (h : IsRanked keys) (hij : i ≤ j) (hj : j < keys.length) :
    keys[j].draws ≤ keys[i].draws := by
  rcases Nat.lt_or_eq_of_le hij with hlt | rfl
  · exact RankKey.draws_le_of_order_eq_lt (List.pairwise_iff_getElem.mp h i j (by omega) hj hlt)
  · exact Nat.le_refl _

theorem nodup (h : IsRanked keys) : keys.Nodup := by
  refine List.Pairwise.imp (fun {a b} hab heq => ?_) h
  have hself : RankKey.order b b = .eq := Std.ReflCmp.compare_self
  rw [heq, hself] at hab
  cases hab

/-- **The rank of a key is its place.** -/
theorem rank_getElem (h : IsRanked keys) (hi : i < keys.length) :
    (RankKey.ranksAmong keys keys[i]).rank = i + 1 := by
  -- The keys before this one are those up to its place; it is not before itself.
  have hprefix : keys.Pairwise fun a b =>
      (RankKey.order b keys[i] == .lt) = true → (RankKey.order a keys[i] == .lt) = true := by
    refine List.Pairwise.imp (fun {a b} hab hb => ?_) h
    rw [beq_iff_eq] at hb ⊢
    exact Std.TransCmp.lt_trans hab hb
  have hcount (j : Nat) (hj : j < keys.length) :
      RankKey.order keys[j] keys[i] = .lt ↔
        j < keys.countP (fun a => RankKey.order a keys[i] == .lt) := by
    rw [← getElem_iff_lt_countP hprefix hj, beq_iff_eq]
  have hself : RankKey.order keys[i] keys[i] = .eq := Std.ReflCmp.compare_self
  have hnot : ¬ i < keys.countP (fun a => RankKey.order a keys[i] == .lt) := by
    rw [← hcount i hi, hself]
    decide
  have hbefore : i ≤ keys.countP (fun a => RankKey.order a keys[i] == .lt) := by
    cases i with
    | zero => exact Nat.zero_le _
    | succ i =>
      have hlt := List.pairwise_iff_getElem.mp h i (i + 1) (by omega) hi (by omega)
      exact (hcount i (by omega)).mp hlt
  simp only [RankKey.ranksAmong]
  omega

end IsRanked

/-! ## §3 Runs of tied keys -/

/-- Keys that are tied with their neighbours have **the same number of draws**. -/
theorem draws_eq_of_isChain {run : List RankKey} (h : run.IsChain fun a b => a.ties b = true) :
    ∀ a ∈ run, ∀ b ∈ run, a.draws = b.draws := by
  -- All have the draws of the first one, from tie to tie.
  have hfirst : ∀ a ∈ run, ∀ c ∈ run.head?, a.draws = c.draws := by
    induction run with
    | nil => simp
    | cons c run ih =>
      cases run with
      | nil => simp
      | cons d run =>
        obtain ⟨hcd, hchain⟩ := List.isChain_cons_cons.mp h
        have hdraws : c.draws = d.draws := beq_iff_eq.mp hcd
        intro a ha c' hc'
        obtain rfl : c = c' := by simpa using hc'
        rcases List.mem_cons.mp ha with rfl | ha
        · rfl
        · exact (ih hchain a ha d (by simp)).trans hdraws.symm
  intro a ha b hb
  cases run with
  | nil => cases ha
  | cons c run => exact (hfirst a ha c (by simp)).trans (hfirst b hb c (by simp)).symm

/-- **The runs of a ranked list**: within a run, the draws are the same, and each key has more draws
than every key of the runs behind. -/
structure AreRuns (runs : List (List RankKey)) : Prop where
  tied : ∀ run ∈ runs, ∀ a ∈ run, ∀ b ∈ run, a.draws = b.draws
  descending : runs.Pairwise fun run later => ∀ a ∈ run, ∀ b ∈ later, b.draws < a.draws

theorem IsRanked.areRuns_splitBy {keys : List RankKey} (h : IsRanked keys) :
    AreRuns (keys.splitBy RankKey.ties) := by
  have htied : ∀ run ∈ keys.splitBy RankKey.ties, ∀ a ∈ run, ∀ b ∈ run, a.draws = b.draws :=
    fun run hrun => draws_eq_of_isChain (List.isChain_of_mem_splitBy hrun)
  have hends := List.isChain_getLast_head_splitBy RankKey.ties keys
  have hflat : ((keys.splitBy RankKey.ties).flatten).Pairwise fun a b => b.draws ≤ a.draws := by
    rw [List.flatten_splitBy]
    exact List.Pairwise.imp (fun {a b} hab => RankKey.draws_le_of_order_eq_lt hab) h
  refine ⟨htied, ?_⟩
  -- From here on, all that matters of the runs is what they begin and end with.
  generalize keys.splitBy RankKey.ties = runs at htied hends hflat
  induction runs with
  | nil => exact .nil
  | cons run runs ih =>
    rw [List.flatten_cons, List.pairwise_append] at hflat
    obtain ⟨_, hrest, hcross⟩ := hflat
    refine List.pairwise_cons.mpr ⟨?_, ih (fun s hs => htied s (by simp [hs])) hends.tail hrest⟩
    cases runs with
    | nil => simp
    | cons next runs =>
      -- The draws fall from the last of this run to the first of the next, and do not rise behind.
      obtain ⟨⟨hrun, hnext, hbreak⟩, _⟩ := List.isChain_cons_cons.mp hends
      obtain ⟨first, next, rfl⟩ := List.exists_cons_of_ne_nil hnext
      rw [List.flatten_cons, List.cons_append] at hrest
      have hbehind : ∀ b ∈ (first :: next) ++ runs.flatten, b.draws ≤ first.draws := by
        intro b hb
        rcases List.mem_cons.mp hb with rfl | hb
        · exact Nat.le_refl _
        · exact (List.pairwise_cons.mp hrest).1 b hb
      have hfall : first.draws < (run.getLast hrun).draws := by
        have hle := hcross _ (List.getLast_mem hrun) first (by simp)
        have hne : (run.getLast hrun).draws ≠ first.draws := by
          simpa [RankKey.ties] using hbreak
        omega
      intro later hlater a ha b hb
      have hlast := htied run (by simp) _ (List.getLast_mem hrun) a ha
      have hb' := hbehind b (List.mem_flatten.mpr ⟨later, hlater, hb⟩)
      omega

/-- The ranks of a key of a run, the keys before and behind it having more draws and fewer. -/
theorem ranksAmong_run {seen run behind : List RankKey}
    (hranked : IsRanked (seen ++ (run ++ behind)))
    (hseen : ∀ a ∈ seen, ∀ b ∈ run, b.draws < a.draws)
    (hrun : ∀ a ∈ run, ∀ b ∈ run, a.draws = b.draws)
    (hbehind : ∀ a ∈ run, ∀ b ∈ behind, b.draws < a.draws) {i : Nat} (hi : i < run.length) :
    RankKey.ranksAmong (seen ++ (run ++ behind)) run[i] =
      ⟨seen.length + i + 1, seen.length + 1, seen.length + run.length⟩ := by
  have hmem : run[i] ∈ run := List.getElem_mem hi
  -- The rank is the place; the two counts go part by part: seen, tied, behind.
  have hrank : (RankKey.ranksAmong (seen ++ (run ++ behind)) run[i]).rank = seen.length + i + 1 := by
    have hplace := hranked.rank_getElem (i := seen.length + i) (by simp; omega)
    simpa [List.getElem_append_right, List.getElem_append_left, hi] using hplace
  have hmore : (seen ++ (run ++ behind)).countP (fun a => decide (run[i].draws < a.draws)) =
      seen.length := by
    rw [List.countP_append, List.countP_append,
      List.countP_eq_length.mpr fun a ha => decide_eq_true (hseen a ha _ hmem),
      List.countP_eq_zero.mpr fun a ha => by simp [hrun a ha _ hmem],
      List.countP_eq_zero.mpr fun a ha => by simpa using Nat.le_of_lt (hbehind _ hmem a ha)]
    rfl
  have hnoFewer : (seen ++ (run ++ behind)).countP (fun a => decide (run[i].draws ≤ a.draws)) =
      seen.length + run.length := by
    rw [List.countP_append, List.countP_append,
      List.countP_eq_length.mpr fun a ha => decide_eq_true (Nat.le_of_lt (hseen a ha _ hmem)),
      List.countP_eq_length.mpr fun a ha => by simp [hrun a ha _ hmem],
      List.countP_eq_zero.mpr fun a ha => by simpa using hbehind _ hmem a ha]
    omega
  rw [RankKey.ranksAmong, Ranks.mk.injEq]
  exact ⟨hrank, congrArg (· + 1) hmore, hnoFewer⟩

namespace RowSources

/-- **Ranks along runs are counts** among all keys, those that were `seen` before included. -/
theorem runRanks_eq_map (seen : List RankKey) {runs : List (List RankKey)}
    (hranked : IsRanked (seen ++ runs.flatten))
    (hseen : ∀ a ∈ seen, ∀ b ∈ runs.flatten, b.draws < a.draws) (hruns : AreRuns runs) :
    runRanks seen.length runs =
      runs.flatten.map fun k => (k.word, RankKey.ranksAmong (seen ++ runs.flatten) k) := by
  induction runs generalizing seen with
  | nil => rfl
  | cons run runs ih =>
    obtain ⟨hdescending, hrest⟩ := List.pairwise_cons.mp hruns.descending
    rw [List.flatten_cons] at hranked hseen ⊢
    have hbehind : ∀ a ∈ run, ∀ b ∈ runs.flatten, b.draws < a.draws := by
      intro a ha b hb
      obtain ⟨later, hlater, hb⟩ := List.mem_flatten.mp hb
      exact hdescending later hlater a ha b hb
    have hhere : run.mapIdx (fun i key =>
          (key.word, ⟨seen.length + i + 1, seen.length + 1, seen.length + run.length⟩)) =
        run.map fun k => (k.word, RankKey.ranksAmong (seen ++ (run ++ runs.flatten)) k) := by
      refine List.ext_getElem (by simp) fun i hi _ => ?_
      have hrun := ranksAmong_run hranked (fun a ha b hb => hseen a ha b (by simp [hb]))
        (hruns.tied run (by simp)) hbehind (by simpa using hi)
      rw [List.getElem_mapIdx, List.getElem_map, hrun]
    -- The keys of this run have been seen when the next one is ranked.
    have hlater := ih (seen ++ run) (by simpa using hranked)
      (fun a ha b hb => by
        rcases List.mem_append.mp ha with ha | ha
        · exact hseen a ha b (by simp [hb])
        · exact hbehind a ha b hb)
      ⟨fun r hr => hruns.tied r (by simp [hr]), hrest⟩
    rw [List.length_append, List.append_assoc] at hlater
    rw [runRanks, hhere, hlater, List.map_append]

end RowSources

/-! ## §4 Words of one length -/

/-- **The ranks of a word among words.** -/
def Word.ranksAmong (bag : TileBag) (legacy : Bool) (words : List Word) (w : Word) : Ranks :=
  RankKey.ranksAmong (words.map (RankKey.ofWord bag legacy)) (RankKey.ofWord bag legacy w)

/-- Different words in upper case have different keys. -/
theorem RankKey.nodup_map_ofWord (bag : TileBag) (legacy : Bool) {words : List Word}
    (hupper : ∀ w ∈ words, w.upper = w) (hnodup : words.Nodup) :
    (words.map (ofWord bag legacy)).Nodup := by
  refine hnodup.map_on fun v hv w hw hkey => ?_
  have hword : v.upper = w.upper := congrArg word hkey
  rwa [hupper v hv, hupper w hw] at hword

/-- Sorting keys of which none is repeated ranks them. -/
theorem isRanked_mergeSort {keys : List RankKey} (h : keys.Nodup) :
    IsRanked (keys.mergeSort RankKey.le) := pairwise_mergeSort_of_nodup h

/-- **A map filled with the values of a function** has them for the keys that are put in. -/
theorem getElem?_foldl_insert {α β : Type} {cmp : α → α → Ordering} [Std.TransCmp cmp]
    [Std.LawfulEqCmp cmp] {f : α → β} {entries : List (α × β)}
    (hentries : ∀ e ∈ entries, e.2 = f e.1) {map : Std.TreeMap α β cmp} {k : α}
    (hk : map[k]? = some (f k) ∨ k ∈ entries.map (·.1)) :
    (entries.foldl (fun map e => map.insert e.1 e.2) map)[k]? = some (f k) := by
  induction entries generalizing map with
  | nil => simpa using hk
  | cons e entries ih =>
    refine ih (fun e he => hentries e (by simp [he])) ?_
    rw [Std.TreeMap.getElem?_insert]
    split
    · next heq =>
      -- An entry for the key itself, early or late, has the value of the function.
      obtain rfl := Std.LawfulEqCmp.eq_of_compare heq
      exact .inl (congrArg some (hentries e (by simp)))
    · next hne =>
      have hkey : k ≠ e.1 := fun h => hne (h ▸ Std.ReflCmp.compare_self)
      simpa [hkey] using hk

namespace RowSources

variable (bag : TileBag) {words : List Word}

/-- **Words are given their ranks among each other.** -/
theorem mem_ranksOf (hupper : ∀ w ∈ words, w.upper = w) (hnodup : words.Nodup) (e : Word × Ranks) :
    e ∈ ranksOf bag words ↔ e.1 ∈ words ∧ e.2 = Word.ranksAmong bag false words e.1 := by
  let keys := words.map (RankKey.ofWord bag false)
  -- Sorting changes the places of the keys, but not the counts.
  have hranked := isRanked_mergeSort (RankKey.nodup_map_ofWord bag false hupper hnodup)
  have heq := runRanks_eq_map [] (by simpa [List.flatten_splitBy] using hranked)
    (by simp) hranked.areRuns_splitBy
  rw [List.flatten_splitBy, List.nil_append,
    RankKey.ranksAmong_congr (List.mergeSort_perm keys RankKey.le), List.length_nil] at heq
  rw [ranksOf, heq]
  simp only [List.mem_map, List.mem_mergeSort]
  constructor
  · rintro ⟨k, ⟨w, hw, rfl⟩, rfl⟩
    have hword : (RankKey.ofWord bag false w).word = w := hupper w hw
    simp only [hword]
    exact ⟨hw, rfl⟩
  · rintro ⟨hw, hranks⟩
    exact ⟨_, ⟨e.1, hw, rfl⟩, Prod.ext (hupper e.1 hw) hranks.symm⟩

/-- The words of a length are grouped, in the order of the list. -/
theorem getD_byLength (words : List Word) (n : Nat) :
    ((byLength words)[n]?).getD [] = words.filter fun w => w.length == n := by
  induction words with
  | nil => simp [byLength]
  | cons w words ih =>
    rw [byLength, List.foldr_cons, Std.TreeMap.getElem?_insert, ← byLength]
    by_cases hn : w.length = n
    · subst hn
      simp [ih]
    · simpa [hn] using ih

theorem getElem?_byLength {w : Word} (hw : w ∈ words) :
    (byLength words)[w.length]? = some (words.filter fun v => v.length == w.length) := by
  have hgroup := getD_byLength words w.length
  cases hfound : (byLength words)[w.length]? with
  | some group => rw [hfound] at hgroup; exact congrArg some hgroup
  | none =>
    -- A group that is missing has no words, but this one has `w`.
    rw [hfound] at hgroup
    have hmem : w ∈ words.filter fun v => v.length == w.length := by simp [hw]
    simp [← hgroup] at hmem

/-- **The stored ranks of a word** are its ranks among the words of its length. -/
theorem getElem?_allRanks (hupper : ∀ w ∈ words, w.upper = w) (hnodup : words.Nodup) {w : Word}
    (hw : w ∈ words) :
    (allRanks bag words)[w]? =
      some (Word.ranksAmong bag false (words.filter fun v => v.length == w.length) w) := by
  let ranks (v : Word) : Ranks :=
    Word.ranksAmong bag false (words.filter fun u => u.length == v.length) v
  let entries := (byLength words).toList.flatMap fun group => ranksOf bag group.2
  have hgroup (n : Nat) (e : Word × Ranks) :
      e ∈ ranksOf bag (words.filter fun u => u.length == n) ↔
        (e.1 ∈ words ∧ e.1.length = n) ∧ e.2 = ranks e.1 := by
    rw [mem_ranksOf bag (fun v hv => hupper v (List.mem_filter.mp hv).1) (hnodup.filter _),
      List.mem_filter, beq_iff_eq]
    exact and_congr_right fun h => by rw [← h.2]
  -- Entries of different groups are for different words, so that it does not matter which is last.
  have hvalue : ∀ e ∈ entries, e.2 = ranks e.1 := by
    intro e he
    obtain ⟨⟨n, group⟩, hmem, he⟩ := List.mem_flatMap.mp he
    have hwords := getD_byLength words n
    rw [Std.TreeMap.mem_toList_iff_getElem?_eq_some.mp hmem, Option.getD_some] at hwords
    exact ((hgroup n e).mp (hwords ▸ he)).2
  have hentry : (w, ranks w) ∈ entries :=
    List.mem_flatMap.mpr ⟨_, Std.TreeMap.mem_toList_iff_getElem?_eq_some.mpr (getElem?_byLength hw),
      (hgroup w.length _).mpr ⟨⟨hw, rfl⟩, rfl⟩⟩
  have hfold : allRanks bag words = entries.foldl (fun map e => map.insert e.1 e.2) ∅ := by
    rw [List.foldl_flatMap]
    rfl
  rw [hfold]
  exact getElem?_foldl_insert hvalue (.inr (List.mem_map.mpr ⟨_, hentry, rfl⟩))

end RowSources

end WordStudy
