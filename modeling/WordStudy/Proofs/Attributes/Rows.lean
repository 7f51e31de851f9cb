import Mathlib.Data.List.SplitBy
import WordStudy.Attributes.Build
import WordStudy.Proofs.Graph.Vocabulary

/-!
# What the rows of a vocabulary say

The rows hold for each word what is counted of it, its hooks and its ranks. A table of just these
rows is searched as the list of words is filtered.
-/

namespace WordStudy

open Text

/-! ## §1 Maps filled from lists -/

section Filling

variable {α β : Type} {cmp : α → α → Ordering} [Std.TransCmp cmp]

/-- What holds of a map and of everything that is put in holds of the map that is filled. -/
theorem forall_getElem?_foldl_insert [Std.LawfulEqCmp cmp] {p : α → β → Prop}
    (entries : List (α × β)) {map : Std.TreeMap α β cmp}
    (hmap : ∀ (k : α) (v : β), map[k]? = some v → p k v) (hentries : ∀ e ∈ entries, p e.1 e.2)
    (k : α) (v : β)
    (hv : (entries.foldl (fun map (k, v) => map.insert k v) map)[k]? = some v) : p k v := by
  induction entries generalizing map with
  | nil => exact hmap k v hv
  | cons e entries ih =>
    refine ih ?_ (fun e he => hentries e (by simp [he])) hv
    intro k' v' hv'
    rw [Std.TreeMap.getElem?_insert] at hv'
    split at hv'
    · next heq =>
      obtain rfl := Std.LawfulEqCmp.eq_of_compare heq
      cases hv'
      exact hentries e (by simp)
    · exact hmap k' v' hv'

end Filling

/-- The set of words in upper case has the words that are one of them in upper case. -/
theorem contains_upperSet (words : List Word) (w : Word) :
    (upperSet words).contains w = words.any (·.upper == w) := by
  simp [upperSet, Word.contains_foldl_insert]

namespace AnagramCounts

/-- **The counts are those of the words**: for each alphagram, what is stored if so many of them have
it. -/
def AreOf (c : AnagramCounts) (words : List Word) : Prop :=
  ∀ a : Word, c.counts[a]? = stored? (words.countP (·.alphagram == a))

theorem areOf_empty : empty.AreOf [] := fun a => by simp [empty, stored?]

/-- One more word counts for its alphagram. -/
theorem AreOf.add {c : AnagramCounts} {words : List Word} (h : c.AreOf words) (w : Word) :
    (c.add w).AreOf (w :: words) := by
  intro a
  simp only [AnagramCounts.add, Std.TreeMap.getElem?_insert, Std.LawfulEqOrd.compare_eq_iff_eq,
    List.countP_cons, beq_iff_eq]
  split
  · next heq =>
    -- What was stored, or zero, is the old number in 32 bits.
    have hbefore : (c.counts[w.alphagram]?).getD 0 =
        UInt32.ofNat (words.countP (·.alphagram == a)) := by
      rw [heq, h a, stored?]
      split
      · next hzero => rw [hzero]; rfl
      · rfl
    rw [hbefore, stored?, if_neg (Nat.succ_ne_zero _), UInt32.ofNat_add]
    rfl
  · exact h a

/-- Only which words there are matters. -/
theorem AreOf.perm {c : AnagramCounts} {words words' : List Word} (h : c.AreOf words)
    (hperm : words.Perm words') : c.AreOf words' := by
  intro a
  rw [h a, hperm.countP_eq]

theorem areOf_ofWords (words : List Word) : (ofWords words).AreOf words := by
  have hfold (c : AnagramCounts) (before : List Word) (h : c.AreOf before) :
      (words.foldl AnagramCounts.add c).AreOf (words ++ before) := by
    induction words generalizing c before with
    | nil => exact h
    | cons w words ih => exact (ih _ _ (h.add w)).perm List.perm_middle
  have hall := hfold empty [] areOf_empty
  rwa [List.append_nil] at hall

/-- **The count of anagrams** is the number of words with the alphagram, in 32 bits. -/
theorem AreOf.count_eq {c : AnagramCounts} {words : List Word} (h : c.AreOf words) (w : Word) :
    c.count w = words.countP (·.alphagram == w.alphagram) % (maxWord32 + 1) := by
  rw [count, h, stored?]
  split
  · next hzero => rw [hzero]; rfl
  · exact UInt32.toNat_ofNat

end AnagramCounts

theorem Word.distinctCount_le (w : Word) : w.distinctCount ≤ w.length := by
  -- `eraseDups` filters before it goes on, so the induction is on a bound of the length.
  have hbytes (n : Nat) (bs : List UInt8) (h : bs.length ≤ n) : bs.eraseDups.length ≤ bs.length := by
    induction n generalizing bs with
    | zero =>
      obtain rfl := List.length_eq_zero_iff.mp (Nat.le_zero.mp h)
      exact Nat.le_refl _
    | succ n ih =>
      cases bs with
      | nil => exact Nat.le_refl _
      | cons b bs =>
        have hfilter := List.length_filter_le (fun c => !c == b) bs
        rw [List.length_cons] at h
        have hrest := ih (bs.filter fun c => !c == b) (by omega)
        rw [List.eraseDups_cons, List.length_cons, List.length_cons]
        omega
  rw [← Word.length_upper w]
  exact hbytes _ _ (Nat.le_refl _)

namespace RowSources

/-! ## §2 Ranks -/

/-- The ranks are in order and no greater than `size`. -/
structure IsWithin (size : Nat) (ranks : Ranks) : Prop where
  rank_le : ranks.rank ≤ size
  tied : ranks.firstTied ≤ ranks.lastTied
  lastTied_le : ranks.lastTied ≤ size

theorem isWithin_runRanks (before : Nat) (runs : List (List RankKey)) {size : Nat}
    (hsize : before + runs.flatten.length ≤ size) : ∀ e ∈ runRanks before runs, IsWithin size e.2 := by
  induction runs generalizing before with
  | nil => simp [runRanks]
  | cons run runs ih =>
    rw [List.flatten_cons, List.length_append] at hsize
    intro e he
    rcases List.mem_append.mp he with hhere | hlater
    · obtain ⟨i, hi, rfl⟩ := List.mem_mapIdx.mp hhere
      constructor <;> simp only <;> omega
    · exact ih (before + run.length) (by omega) e hlater

theorem isWithin_ranksOf (bag : TileBag) (words : List Word) {size : Nat}
    (hsize : words.length ≤ size) : ∀ e ∈ ranksOf bag words, IsWithin size e.2 := by
  apply isWithin_runRanks
  rw [List.flatten_splitBy]
  simpa using hsize

/-- Words of one length are no more than all words. -/
theorem length_le_of_byLength (words : List Word) :
    ∀ (n : Nat) (group : List Word), (byLength words)[n]? = some group →
      group.length ≤ words.length := by
  induction words with
  | nil => simp [byLength]
  | cons w words ih =>
    intro n group hgroup
    rw [byLength, List.foldr_cons, Std.TreeMap.getElem?_insert] at hgroup
    split at hgroup
    · -- The group that the word is put into has one word more than before.
      cases hgroup
      cases hold : (byLength words)[w.length]? with
      | none =>
        rw [byLength] at hold
        simp [hold]
      | some old =>
        have hle := ih _ _ hold
        rw [byLength] at hold
        simpa [hold] using hle
    · have hle := ih n group hgroup
      simp only [List.length_cons]
      omega

/-- The ranks of all words are in order and no greater than `size`. -/
def AllWithin (size : Nat) (ranks : Std.TreeMap Word Ranks) : Prop :=
  ∀ (w : Word) (r : Ranks), ranks[w]? = some r → IsWithin size r

/-- **Every rank is that of a word.** -/
theorem isWithin_allRanks (bag : TileBag) (words : List Word) (w : Word) :
    IsWithin words.length (((allRanks bag words)[w]?).getD ⟨0, 0, 0⟩) := by
  have hall : AllWithin words.length (allRanks bag words) := by
    unfold allRanks
    -- One length of words after the other.
    apply List.foldlRecOn (motive := AllWithin words.length)
    · simp [AllWithin]
    · intro ranks hranks group hgroup
      have hlength := length_le_of_byLength words group.1 group.2
        (Std.TreeMap.mem_toList_iff_getElem?_eq_some.mp hgroup)
      exact forall_getElem?_foldl_insert _ hranks (isWithin_ranksOf bag group.2 hlength)
  cases hr : (allRanks bag words)[w]? with
  | none => exact ⟨Nat.zero_le _, Nat.le_refl _, Nat.zero_le _⟩
  | some r => exact hall w r hr

/-! ## §3 Tables -/

/-- The row of a word. -/
def rowFor (s : RowSources) (w : Word) : Row :=
  s.row (AnagramCounts.ofWords s.vocabulary.words)
    (((allRanks s.bag s.vocabulary.words)[w]?).getD ⟨0, 0, 0⟩) w

theorem rows_eq_map (s : RowSources) : s.rows = s.vocabulary.words.map s.rowFor := rfl

@[simp] theorem word_rowFor (s : RowSources) (w : Word) : (s.rowFor w).word = w := rfl

/-- **The numbers of a row fit their columns** if the words are not more, and this one is not longer,
than numbers of 32 bits can tell. -/
theorem fitsColumns_of_few {s : RowSources} (hcount : s.vocabulary.words.length ≤ maxWord32)
    {w : Word} (hlength : w.length ≤ maxWord32) : (s.rowFor w).FitsColumns := by
  have hwithin := isWithin_allRanks s.bag s.vocabulary.words w
  have hranks := Nat.le_trans hwithin.lastTied_le hcount
  have hanagrams : (AnagramCounts.ofWords s.vocabulary.words).count w ≤ maxWord32 :=
    Nat.le_of_lt_succ (UInt32.toNat_lt _)
  have hpoints : s.bag.pointValue w ≤ maxWord32 := Nat.le_of_lt_succ (Nat.mod_lt _ (by decide))
  simp only [Row.FitsColumns, Row.numbers, List.forall_mem_cons]
  -- What is counted of a word is no more than its letters are, or than the words.
  exact ⟨hlength, Nat.le_trans hwithin.rank_le hcount, Nat.le_trans hwithin.tied hranks, hranks,
    Nat.le_trans List.countP_le_length hlength, Nat.le_trans (Word.distinctCount_le w) hlength,
    hanagrams, hpoints, List.forall_mem_nil _⟩

/-- **A table of the rows** is searched as the words are filtered. -/
theorem find_eq_filter {s : RowSources} {t : AttributeTable} (ht : t.toList = s.rows)
    (predicates : List Predicate) (candidates : Option (List Word)) :
    t.find predicates candidates = s.vocabulary.words.filter fun w =>
      candidates.all (fun words => words.any (·.upper == w)) &&
        predicates.all (·.holds (s.rowFor w)) := by
  cases candidates with
  | none =>
    simp [AttributeTable.find, AttributeTable.among, ht, rows_eq_map, List.filter_map,
      Function.comp_def]
  | some words =>
    simp only [AttributeTable.find, AttributeTable.among, ht, rows_eq_map, List.filter_map,
      List.filter_filter, List.map_map, Function.comp_def, word_rowFor, List.map_id',
      contains_upperSet, Option.all_some]
    exact List.filter_congr fun w _ => Bool.and_comm _ _

/-- A table that rows are put into has the row of each word that is among theirs, as columns hold
it. -/
theorem getElem?_insert_rowFor (s : RowSources) (words : List Word) (t : AttributeTable) (w : Word) :
    (t.insert (words.map s.rowFor)).rows[w]? =
      if w ∈ words then some (s.rowFor w).cut else t.rows[w]? := by
  unfold AttributeTable.insert
  induction words generalizing t with
  | nil => simp
  | cons v words ih =>
    rw [List.map_cons, List.foldl_cons, ih, AttributeTable.put]
    dsimp only
    rw [word_rowFor, Std.TreeMap.getElem?_insert]
    by_cases hv : v = w
    · subst hv
      simp
    · have hw : w ≠ v := fun h => hv h.symm
      simp [hv, hw]

/-- **A table that the rows are put into** lists just the rows, if their numbers fit the columns. -/
theorem toList_insert_rows {s : RowSources} (h : Word.Ascending s.vocabulary.words)
    (hfits : ∀ row ∈ s.rows, row.FitsColumns) :
    (AttributeTable.empty.insert s.rows).toList = s.rows := by
  let table := (AttributeTable.empty.insert s.rows).rows
  have hget (w : Word) : table[w]? = if w ∈ s.vocabulary.words then some (s.rowFor w) else none := by
    have hinsert := getElem?_insert_rowFor s s.vocabulary.words AttributeTable.empty w
    rw [← rows_eq_map] at hinsert
    rw [hinsert]
    split
    · next hw =>
      have hrow : (s.rowFor w).FitsColumns := hfits _ (List.mem_map_of_mem hw)
      rw [hrow.cut_eq]
    · simp [AttributeTable.empty]
  have hentry (e : Word × Row) :
      e ∈ table.toList ↔ e.1 ∈ s.vocabulary.words ∧ e.2 = s.rowFor e.1 := by
    rw [Std.TreeMap.mem_toList_iff_getElem?_eq_some, hget]
    split <;> simp_all [eq_comm]
  -- The keys are in order, and so are the words of the vocabulary.
  have hwords : table.toList.map (·.1) = s.vocabulary.words := by
    refine Word.Ascending.eq_of_mem_iff (List.pairwise_map.mpr table.ordered_keys_toList) h ?_
    intro w
    rw [List.mem_map]
    constructor
    · rintro ⟨e, he, rfl⟩
      exact ((hentry e).mp he).1
    · exact fun hw => ⟨(w, s.rowFor w), (hentry _).mpr ⟨hw, rfl⟩, rfl⟩
  have hrows : table.toList.map (·.2) = (table.toList.map (·.1)).map s.rowFor := by
    rw [List.map_map]
    exact List.map_congr_left fun e he => ((hentry e).mp he).2
  show table.toList.map (·.2) = s.rows
  rw [hrows, hwords, rows_eq_map]

end RowSources

end WordStudy
