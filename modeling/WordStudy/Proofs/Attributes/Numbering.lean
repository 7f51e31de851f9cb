import WordStudy.Proofs.Access.Rows
import WordStudy.Proofs.Search.Ranking

/-!
# Rows are numbered by rank

The ranks that the rows of a vocabulary store **number the words of each length**: they are 1, 2, 3
and so on, in the order of ranks. The other two numbers of a row bound the ranks of its tie, and
they tell the tie: rows have both in common exactly if their words have as many draws.
-/

namespace WordStudy

/-! ## §1 Ranks among words -/

section Ranks

variable (bag : TileBag) (legacy : Bool) {words : List Word}

/-- **The rank of a word is its place** in the order of ranks. -/
theorem rank_getElem_ranked (hcase : (words.map Word.upper).Nodup) {i : Nat}
    (hi : i < (ranked bag legacy words).length) :
    (Word.ranksAmong bag legacy words (ranked bag legacy words)[i]).rank = i + 1 := by
  have hperm := (rankWords_perm bag legacy hcase).map (·.1)
  rw [List.map_map] at hperm
  have hi' : i < (rankWords bag legacy words).length := by simpa [ranked] using hi
  have hrank := (isRanked_rankWords bag legacy words).rank_getElem (i := i) (by simpa using hi')
  rw [RankKey.ranksAmong_congr hperm, List.getElem_map, (mem_rankWords (List.getElem_mem hi')).2]
    at hrank
  simpa [Word.ranksAmong, ranked, Function.comp_def] using hrank

/-- **Ranks number the words**, from 1 to as many as there are. -/
theorem map_rank_perm_range (hcase : (words.map Word.upper).Nodup) :
    (words.map fun w => (Word.ranksAmong bag legacy words w).rank).Perm
      (List.range' 1 words.length) := by
  have hperm := ranked_perm bag legacy hcase
  -- In the order of ranks, the numbers come one after the other.
  have hnumbers : (ranked bag legacy words).map
      (fun w => (Word.ranksAmong bag legacy words w).rank) = List.range' 1 words.length := by
    refine List.ext_getElem (by simp [hperm.length_eq]) fun i hi _ => ?_
    rw [List.getElem_map, rank_getElem_ranked bag legacy hcase (by simpa using hi),
      List.getElem_range', Nat.one_mul, Nat.add_comm]
  rw [← hnumbers]
  exact hperm.symm.map _

end Ranks

namespace RowSources

/-! ## §2 Rows of one length -/

/-- The rows of one length are those of its words. -/
theorem filter_length_rows (s : RowSources) (n : Nat) :
    s.rows.filter (fun r => r.length == n) =
      (s.vocabulary.words.filter fun w => w.length == n).map s.rowFor := by
  rw [rows_eq_map, List.filter_map]
  rfl

/-- **A row has the ranks of its word** among the words of its length. -/
theorem ranks_of_mem_rows {s : RowSources} (hupper : ∀ w ∈ s.vocabulary.words, w.upper = w)
    (hnodup : s.vocabulary.words.Nodup) {n : Nat} {r : Row}
    (hr : r ∈ s.rows.filter fun r => r.length == n) :
    let words := s.vocabulary.words.filter fun w => w.length == n
    r.word ∈ words ∧
      (⟨r.rank, r.firstTied, r.lastTied⟩ : Ranks) = Word.ranksAmong s.bag false words r.word := by
  rw [filter_length_rows] at hr
  obtain ⟨w, hw, rfl⟩ := List.mem_map.mp hr
  obtain ⟨hmem, hlength⟩ := List.mem_filter.mp hw
  -- Ranks are given for all lengths at once, each among the words of its own length.
  have hranks := getElem?_allRanks s.bag hupper hnodup hmem
  rw [beq_iff_eq.mp hlength] at hranks
  refine ⟨hw, ?_⟩
  simp only [rowFor, row, hranks, Option.getD_some]

/-- **Where the rows fit their columns**, the words of a length are not more than numbers of 32 bits
can tell, for the last of them has their number for its rank. -/
theorem length_filter_le_of_fitsColumns {s : RowSources}
    (hupper : ∀ w ∈ s.vocabulary.words, w.upper = w) (hnodup : s.vocabulary.words.Nodup)
    (hfits : ∀ w ∈ s.vocabulary.words, (s.rowFor w).FitsColumns) (n : Nat) :
    (s.vocabulary.words.filter fun w => w.length == n).length ≤ Text.maxWord32 := by
  let words := s.vocabulary.words.filter fun w => w.length == n
  have hupper' : ∀ w ∈ words, w.upper = w := fun w hw => hupper w (List.mem_filter.mp hw).1
  have hcase : (words.map Word.upper).Nodup := by
    rw [List.map_congr_left hupper', List.map_id']
    exact hnodup.filter _
  show words.length ≤ _
  rcases Nat.eq_zero_or_pos words.length with hnone | hsome
  · rw [hnone]
    exact Nat.zero_le _
  -- The last of the words has their number as its rank, and its row fits a column.
  have hlast : words.length ∈ words.map fun w => (Word.ranksAmong s.bag false words w).rank := by
    rw [(map_rank_perm_range s.bag false hcase).mem_iff, List.mem_range'_1]
    omega
  obtain ⟨w, hw, hrank⟩ := List.mem_map.mp hlast
  have hrow : s.rowFor w ∈ s.rows.filter fun r => r.length == n :=
    filter_length_rows s n ▸ List.mem_map_of_mem hw
  have hranks : (s.rowFor w).rank = (Word.ranksAmong s.bag false words w).rank :=
    congrArg Ranks.rank (ranks_of_mem_rows hupper hnodup hrow).2
  rw [← hrank, ← hranks]
  exact hfits w (List.mem_filter.mp hw).1 _ (by simp [Row.numbers])

/-- **Nor are the words with the same letters.** -/
theorem countP_isPerm_le_of_fitsColumns {s : RowSources}
    (hupper : ∀ w ∈ s.vocabulary.words, w.upper = w) (hnodup : s.vocabulary.words.Nodup)
    (hfits : ∀ w ∈ s.vocabulary.words, (s.rowFor w).FitsColumns) (w : Word) :
    s.vocabulary.words.countP (·.isPerm w) ≤ Text.maxWord32 := by
  refine Nat.le_trans ?_ (length_filter_le_of_fitsColumns hupper hnodup hfits w.length)
  rw [← List.countP_eq_length_filter]
  refine List.countP_mono_left fun v _ hv => ?_
  rw [beq_iff_eq]
  exact (List.isPerm_iff.mp hv).length_eq

end RowSources

end WordStudy
