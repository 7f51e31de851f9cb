import WordStudy.Proofs.Lexicon.Authority
import WordStudy.Proofs.Lexicon.Cache
import WordStudy.Proofs.Lexicon.Indexed

/-!
# The index with and without candidates

The index is asked in two ways: for rows among words found before, which stay spelled as they were,
and for rows at large, of which those of accepted words count. If the store keeps its words **in upper
case**, both ways come to the same words, and no way finds a word twice, in whatever case; nor does
any search. If it does not, a row in lower case is found by the one way and missed by the other, and
one word can be found twice.
-/

namespace WordStudy

open Text

/-! ## §1 Rows that are found -/

namespace AttributeTable

variable {t : AttributeTable}

/-- **The words of the rows** come in order, each once. -/
theorem ascending_words (t : AttributeTable) : Word.Ascending (t.toList.map (·.word)) := by
  have hkeys : t.toList.map (·.word) = t.rows.toList.map (·.1) := by
    rw [toList, List.map_map]
    apply List.map_congr_left
    rintro ⟨w, row⟩ he
    exact t.keyed w row (Std.TreeMap.mem_toList_iff_getElem?_eq_some.mp he)
  rw [hkeys]
  exact List.pairwise_map.mpr t.rows.ordered_keys_toList

/-- Rows that are found are some of all rows. -/
theorem find_sublist (t : AttributeTable) (predicates : List Predicate)
    (candidates : Option (List Word)) :
    (t.find predicates candidates).Sublist (t.toList.map (·.word)) := by
  have hamong : (t.among candidates).Sublist t.toList := by
    cases candidates with
    | none => exact List.Sublist.refl _
    | some words => exact List.filter_sublist
  exact (List.filter_sublist.trans hamong).map _

theorem mem_among (candidates : Option (List Word)) (row : Row) :
    row ∈ t.among candidates ↔ t.row? row.word = some row ∧
      candidates.all (fun words => words.any (·.upper == row.word)) = true := by
  cases candidates with
  | none => simp [among, mem_toList]
  | some words =>
    simp only [among, List.mem_filter, mem_toList, contains_upperSet, Option.all_some]

theorem mem_find (predicates : List Predicate) (candidates : Option (List Word))
    (w : Word) : w ∈ t.find predicates candidates ↔
      (∃ row, t.row? w = some row ∧ ∀ p ∈ predicates, p.holds row = true) ∧
        candidates.all (fun words => words.any (·.upper == w)) = true := by
  simp only [find, List.mem_map, List.mem_filter, mem_among, List.all_eq_true]
  constructor
  · rintro ⟨row, ⟨⟨hrow, hbefore⟩, hholds⟩, rfl⟩
    exact ⟨⟨row, hrow, hholds⟩, hbefore⟩
  · rintro ⟨⟨row, hrow, hholds⟩, hbefore⟩
    obtain rfl := t.keyed w row hrow
    exact ⟨row, ⟨⟨hrow, hbefore⟩, hholds⟩, rfl⟩

end AttributeTable

/-- **What a store answers**: if the predicates of some conditions are neither nested too deep nor too
long, and have no mask that is too long, the words of its rows of which they hold, among the
candidates if there are any. -/
theorem AttributeStore.mem_find_iff (s : AttributeStore) (conditions : List Condition)
    (candidates : Option (List Word)) (w : Word) :
    (∃ words, s.find (RowQuery.ofConditions conditions) candidates = .ok words ∧ w ∈ words) ↔
      isAskable (RowQuery.ofConditions conditions) candidates = true ∧
        (∀ p ∈ RowQuery.ofConditions conditions, ∀ row : Row, p.meetsLongMask row = false) ∧
        (∃ row, s.stored? w = some row ∧ ∀ p ∈ RowQuery.ofConditions conditions, p.holds row = true) ∧
        candidates.all (fun words => words.any (·.upper == w)) = true := by
  constructor
  · rintro ⟨words, hwords, hw⟩
    obtain ⟨t, htable, rfl, hasked, hmasks⟩ := find_eq_ok hwords
    obtain ⟨⟨row, hrow, hholds⟩, hbefore⟩ := (AttributeTable.mem_find _ _ w).mp hw
    -- Testing the row itself came to all masks, and to none that is too long.
    have hmem : row ∈ t.among candidates := by
      rw [AttributeTable.mem_among, t.keyed w row hrow]
      exact ⟨hrow, hbefore⟩
    have hshort (p : Predicate) (hp : p ∈ RowQuery.ofConditions conditions) (row' : Row) :
        p.meetsLongMask row' = false := meetsLongMask_eq_false_of_holds hmasks hmem hholds hp row'
    refine ⟨hasked, hshort, ⟨row, ?_, hholds⟩, hbefore⟩
    rw [stored?, htable]
    exact hrow
  · rintro ⟨hasked, hshort, ⟨row, hrow, hholds⟩, hbefore⟩
    obtain ⟨t, htable, hrow⟩ := Option.bind_eq_some_iff.mp hrow
    exact ⟨_, find_eq_of_fits htable hasked hshort,
      (AttributeTable.mem_find _ _ w).mpr ⟨⟨row, hrow, hholds⟩, hbefore⟩⟩

namespace Lexicon

variable {lex : Lexicon} {conditions : List Condition}

/-- **A row meets the conditions**: the store has one under the word of which all predicates hold, and
none of their masks is too long for the store. -/
structure RowMeets (lex : Lexicon) (conditions : List Condition) (w : Word) : Prop where
  short : ∀ p ∈ RowQuery.ofConditions conditions, ∀ row : Row, p.meetsLongMask row = false
  holds : ∃ row, lex.store.bind (·.stored? w) = some row ∧
    ∀ p ∈ RowQuery.ofConditions conditions, p.holds row = true

/-- **The words of the rows that are found**, as far as the store answers. -/
theorem mem_findRows_iff {found : Option (List Word)} {w : Word} :
    w ∈ lex.findRows conditions found ↔
      isAskable (RowQuery.ofConditions conditions) found = true ∧
        lex.RowMeets conditions w ∧ found.all (fun words => words.any (·.upper == w)) = true := by
  -- Without a store there are no rows; otherwise it is the store's own answer.
  unfold findRows
  cases hstore : lex.store with
  | none =>
    have hnone : ¬ lex.RowMeets conditions w := fun h => by simpa [hstore] using h.holds
    simp [hnone]
  | some store =>
    have hmeets : lex.RowMeets conditions w ↔
        (∀ p ∈ RowQuery.ofConditions conditions, ∀ row : Row, p.meetsLongMask row = false) ∧
          ∃ row, store.stored? w = some row ∧
            ∀ p ∈ RowQuery.ofConditions conditions, p.holds row = true := by
      have hrow : lex.store.bind (·.stored? w) = store.stored? w := by rw [hstore, Option.bind_some]
      exact ⟨fun h => ⟨h.short, hrow ▸ h.holds⟩, fun h => ⟨h.1, hrow ▸ h.2⟩⟩
    rw [hmeets, and_assoc, ← store.mem_find_iff, Option.elim_some]
    cases store.find (RowQuery.ofConditions conditions) found <;> simp

/-- Rows are found in the order of their words, each once. -/
theorem ascending_findRows (lex : Lexicon) (conditions : List Condition)
    (found : Option (List Word)) : Word.Ascending (lex.findRows conditions found) := by
  unfold findRows
  cases hstore : lex.store with
  | none => exact .nil
  | some store =>
    rw [Option.elim_some]
    cases hfind : store.find (RowQuery.ofConditions conditions) found with
    | error fault => exact .nil
    | ok words =>
      obtain ⟨t, htable, rfl, -⟩ := AttributeStore.find_eq_ok hfind
      exact t.ascending_words.sublist (t.find_sublist _ found)

/-! ## §2 Candidates -/

/-- **Words found before are told by their upper case**, if no two of them have the same. -/
theorem getElem?_spelling_iff {words : List Word} (h : (words.map Word.upper).Nodup) (k w : Word) :
    (words.foldl (fun spelling v => spelling.insert v.upper v) (∅ : Std.TreeMap Word Word))[k]? =
      some w ↔ w ∈ words ∧ w.upper = k := by
  -- Each entry of the map was put there by one of the words.
  have hspelled (w : Word)
      (hw : (words.foldl (fun spelling v => spelling.insert v.upper v)
        (∅ : Std.TreeMap Word Word))[k]? = some w) : w ∈ words ∧ w.upper = k := by
    have hentries : ∀ e ∈ words.map fun v => (v.upper, v), e.2 ∈ words ∧ e.2.upper = e.1 := by
      intro e he
      obtain ⟨v, hv, rfl⟩ := List.mem_map.mp he
      exact ⟨hv, rfl⟩
    have hnone : ∀ k w : Word, (∅ : Std.TreeMap Word Word)[k]? = some w →
        w ∈ words ∧ w.upper = k := by simp
    apply forall_getElem?_foldl_insert _ hnone hentries k
    rw [List.foldl_map]
    exact hw
  constructor
  · exact hspelled w
  · rintro ⟨hw, rfl⟩
    -- The other way, some word stands under the key, and no other word is spelled so.
    have hany : words.any (·.upper == w.upper) = true := List.any_eq_true.mpr ⟨w, hw, by simp⟩
    have hmap := map_upper_getElem?_spelling words w.upper
    rw [hany, if_pos rfl] at hmap
    obtain ⟨v, hv, hupper⟩ := Option.map_eq_some_iff.mp hmap
    rw [hv, List.inj_on_of_nodup_map h (hspelled v hv).1 hw hupper]

/-- Each candidate stays as it was spelled, and stays once. -/
theorem map_upper_searchIndex_some (words : List Word) :
    (lex.searchIndex conditions (some words)).map Word.upper =
      lex.findRows conditions (some words) := by
  apply map_upper_searchIndex
  intro w hw
  exact (mem_findRows_iff.mp hw).2.2

theorem mem_searchIndex_some {words : List Word} (h : (words.map Word.upper).Nodup) (w : Word) :
    w ∈ lex.searchIndex conditions (some words) ↔
      w ∈ words ∧ w.upper ∈ lex.findRows conditions (some words) := by
  simp only [searchIndex, List.mem_filterMap, getElem?_spelling_iff h]
  constructor
  · rintro ⟨u, hu, hw, hupper⟩
    obtain ⟨v, -, hv⟩ := List.any_eq_true.mp (mem_findRows_iff.mp hu).2.2
    rw [← beq_iff_eq.mp hv, Word.upper_upper, beq_iff_eq.mp hv] at hupper
    exact ⟨hw, hupper ▸ hu⟩
  · rintro ⟨hw, hu⟩
    exact ⟨w.upper, hu, hw, (Word.upper_upper w).symm⟩

end Lexicon

/-! ## §3 No word twice -/

/-- **The words of the rows are in upper case.** -/
def AttributeStore.IsUpper (s : AttributeStore) : Prop :=
  ∀ w row, s.stored? w = some row → w.upper = w

/-- **No two words are the same but for case.** -/
def Word.Unrepeated (words : List Word) : Prop := (words.map Word.upper).Nodup

instance (words : List Word) : Decidable (Word.Unrepeated words) :=
  inferInstanceAs (Decidable (words.map Word.upper).Nodup)

theorem Word.Unrepeated.sublist {vs ws : List Word} (h : Unrepeated ws) (hsub : vs.Sublist ws) :
    Unrepeated vs := List.Nodup.sublist (hsub.map _) h

theorem Word.Unrepeated.map_upper {words : List Word} (h : Unrepeated words) :
    Unrepeated (words.map Word.upper) := by
  have hsame : (words.map Word.upper).map Word.upper = words.map Word.upper := by simp
  rw [Unrepeated, hsame]
  exact h

/-- **A window repeats no word**, whatever it is given. -/
theorem RankWindow.unrepeated_keep (window : RankWindow) (bag : TileBag) (words : List Word) :
    Word.Unrepeated (window.keep bag words) := by
  rw [Word.Unrepeated, ← keep_map_upper]
  unfold keep
  dsimp only
  split
  · exact List.nodup_nil
  · refine List.Nodup.sublist ?_ (nodup_map_rankWords bag window.legacy (words.map Word.upper))
    exact ((List.take_sublist _ _).trans (List.drop_sublist _ _)).map _

namespace Lexicon

variable {lex : Lexicon}

/-- The words of a graph are found once, with their marks. -/
theorem IsPlain.unrepeated_searchMarked (h : lex.IsPlain) (conditions : List Condition) :
    Word.Unrepeated (lex.vocabulary.searchMarked conditions) := by
  unfold Vocabulary.searchMarked
  split
  · next q hq =>
    -- In capitals the marked words are the words found, so none comes twice.
    have hmarks : ((lex.vocabulary.run q).map q.markWildcards).map Word.upper =
        lex.vocabulary.run q := by
      rw [List.map_map]
      refine (List.map_congr_left fun w hw => ?_).trans (List.map_id _)
      rw [h.vocabulary.run_eq_filter] at hw
      exact q.upper_markWildcards (h.plain w (List.mem_filter.mp hw).1)
    rw [Word.Unrepeated, hmarks, h.vocabulary.run_eq_filter]
    exact (h.vocabulary.forward.sorted.ascending_words.filter _).nodup
  · exact List.nodup_nil

/-- The words of the rows of the store, if there is one, are in upper case. -/
def HasUpperStore (lex : Lexicon) : Prop := ∀ store, lex.store = some store → store.IsUpper

/-- A row that is stored is stored under a word in upper case. -/
theorem HasUpperStore.upper_eq (h : lex.HasUpperStore) {w : Word} {row : Row}
    (hrow : lex.store.bind (·.stored? w) = some row) : w.upper = w := by
  obtain ⟨store, hstore, hstored⟩ := Option.bind_eq_some_iff.mp hrow
  exact h store hstore w row hstored

variable (hstore : lex.HasUpperStore)

include hstore

/-- **The index finds no word twice**: among candidates, each stays once, and at large the words of
the rows are in upper case as they stand. -/
theorem unrepeated_searchIndex (conditions : List Condition) (found : Option (List Word)) :
    Word.Unrepeated (lex.searchIndex conditions found) := by
  have hrows := (lex.ascending_findRows conditions found).nodup
  -- With candidates the words are spelled as these; without, as the rows themselves.
  cases found with
  | some words =>
    rw [Word.Unrepeated, map_upper_searchIndex_some]
    exact hrows
  | none =>
    have hupper : (lex.findRows conditions none).map Word.upper = lex.findRows conditions none := by
      refine (List.map_congr_left fun w hw => ?_).trans (List.map_id _)
      obtain ⟨row, hrow, -⟩ := (mem_findRows_iff.mp hw).2.1.holds
      exact hstore.upper_eq hrow
    apply Word.Unrepeated.sublist _ List.filter_sublist
    rw [Word.Unrepeated, hupper]
    exact hrows

/-- **One step** after words of which none is repeated. -/
theorem IsPlain.unrepeated_runStep (h : lex.IsPlain) {found : Option (List Word)}
    (hfound : Word.Unrepeated (found.getD [])) (step : PlanStep) :
    Word.Unrepeated (lex.runStep found step) := by
  cases step with
  | graph conditions => exact h.unrepeated_searchMarked conditions
  | index conditions => exact unrepeated_searchIndex hstore conditions found
  | wordwise conditions => exact hfound.sublist List.filter_sublist

theorem IsPlain.unrepeated_runSteps (h : lex.IsPlain) (steps : List PlanStep) :
    Word.Unrepeated (lex.runSteps steps) := by
  unfold runSteps
  apply List.foldlRecOn
    (motive := fun found : Option (List Word) => Word.Unrepeated (found.getD []))
  · exact List.nodup_nil
  · exact fun found hfound step _ => h.unrepeated_runStep hstore hfound step

/-- **A search finds no word twice**, in whatever case: the branches of a choice are united, and a
window drops repeats by itself. -/
theorem IsPlain.unrepeated_search (h : lex.IsPlain) (spec : SearchSpec) (capitals : Bool) :
    Word.Unrepeated (lex.search spec capitals).1 := by
  -- A window keeps no word twice, and a union is sorted; else it is the last step's answer.
  have hplan (plan : Plan) : Word.Unrepeated (lex.runPlan plan) := by
    unfold runPlan
    dsimp only
    cases plan.window? with
    | some window => exact window.unrepeated_keep lex.bag _
    | none =>
      cases plan with
      | nothing => exact List.nodup_nil
      | all steps window => exact h.unrepeated_runSteps hstore steps
      | any branches window => exact (ascending_unite _).nodup
  rw [fst_search, find]
  cases capitals with
  | true => exact (hplan _).map_upper
  | false => exact hplan _

end Lexicon

/-! ## §4 Both ways to ask the index -/

namespace Lexicon

/-- **The index answers alike with and without candidates, and nothing is found twice.** The store that
is attached after any operations, if there is one, may have any rows under words in upper case. Then
among accepted words, of which no two are the same but for case, the index keeps just those that it
finds in some case without candidates, unless the list of candidates is too long for the store or
makes the question too deep; and neither the index nor any search finds two words that are the same but for case. -/
theorem mem_searchIndex_candidates_iff {name : String} {settings : Settings} {lex₀ : Lexicon}
    (hcreate : create name settings = .ok lex₀) {steps : List LexiconStep}
    (hstore : (lex₀.runHistory steps).HasUpperStore) :
    (∀ (conditions : List Condition) (candidates : List Word),
      (lex₀.runHistory steps).AcceptsAll candidates → Word.Unrepeated candidates →
      ∀ w, w ∈ (lex₀.runHistory steps).searchIndex conditions (some candidates) ↔
        w ∈ candidates ∧ isAskable (RowQuery.ofConditions conditions) (some candidates) = true ∧
          ∃ v ∈ (lex₀.runHistory steps).searchIndex conditions none, v.upper = w.upper) ∧
    (∀ (conditions : List Condition) (found : Option (List Word)),
      Word.Unrepeated ((lex₀.runHistory steps).searchIndex conditions found)) ∧
    ∀ (spec : SearchSpec) (capitals : Bool),
      Word.Unrepeated ((lex₀.runHistory steps).search spec capitals).1 := by
  have hplain := isPlain_runHistory hcreate steps
  generalize lex₀.runHistory steps = lex at *
  refine ⟨?_, unrepeated_searchIndex hstore, hplain.unrepeated_search hstore⟩
  intro conditions candidates haccepts hunrepeated w
  rw [mem_searchIndex_some hunrepeated, mem_findRows_iff]
  constructor
  · rintro ⟨hw, hasked, hmeets, -⟩
    refine ⟨hw, hasked, w.upper, List.mem_filter.mpr ⟨?_, ?_⟩, Word.upper_upper w⟩
    · exact mem_findRows_iff.mpr ⟨isAskable_of_candidates hasked, hmeets, rfl⟩
    · rw [lex.accepts_congr (Word.upper_upper w)]
      exact haccepts w hw
  · rintro ⟨hw, hasked, v, hv, hsame⟩
    obtain ⟨-, hmeets, -⟩ := mem_findRows_iff.mp (List.mem_filter.mp hv).1
    -- The row lies under a word in upper case, which is that of the candidate.
    obtain ⟨row, hrow, -⟩ := hmeets.holds
    rw [hstore.upper_eq hrow] at hsame
    rw [hsame] at hmeets
    exact ⟨hw, hasked, hmeets, List.any_eq_true.mpr ⟨w, hw, by simp⟩⟩

end Lexicon

/-- **A store of rows in upper case.** -/
theorem AttributeStore.isUpper_inMemory {rows : List Row}
    (h : ∀ row ∈ rows, row.word.upper = row.word) :
    (inMemory (AttributeTable.empty.insert rows)).IsUpper := by
  apply AttributeTable.forall_row?_insert (p := fun w _ => w.upper = w) _ h
  intro w row hrow
  simp [AttributeTable.row?, AttributeTable.empty] at hrow

namespace Lexicon

/-- `AT` and `TA` are imported and rows attached. -/
def withRows (rows : List Row) : List LexiconStep :=
  [.importWords [[0x41, 0x54], [0x54, 0x41]],
    .attach (.inMemory (AttributeTable.empty.insert rows))]

theorem hasUpperStore_withRows (lex₀ : Lexicon) {rows : List Row}
    (h : ∀ row ∈ rows, row.word.upper = row.word) :
    (lex₀.runHistory (withRows rows)).HasUpperStore := by
  rw [HasUpperStore, store_runHistory]
  rintro store ⟨⟩
  exact AttributeStore.isUpper_inMemory h

/-- A number of vowels is looked for in all rows, or in those of the candidates. -/
theorem findRows_vowels {lex : Lexicon} {t : AttributeTable}
    (hstore : lex.store = some (.inMemory t)) (r : Bounds) {found : Option (List Word)}
    (hfound : ∀ words ∈ found, listSize (words.map fun w => Word.text w.upper) ≤ maxTextSize) :
    lex.findRows [.vowels r] found =
      ((t.among found).filter fun row => (row.cell .vowels).inBounds r).map (·.word) := by
  have hone : RowQuery.ofConditions [.vowels r] = [.range .vowels r] := rfl
  have hasked : isAskable [.range .vowels r] found = true :=
    hone ▸ isAskable_ofConditions (by simp [hone])
      (List.forall_mem_singleton.mpr ⟨rfl, rfl, rfl⟩) hfound
  have hshort : ∀ p ∈ [Predicate.range .vowels r], ∀ row : Row, p.meetsLongMask row = false := by
    simp [Predicate.meetsLongMask]
  rw [findRows, hstore, Option.elim_some, hone,
    AttributeStore.find_eq_of_fits (s := .inMemory t) rfl hasked hshort]
  simp [AttributeTable.find, Predicate.holds]

/-- Of `AT` and `TA`, the row of the first tells of one vowel. A search for it finds the word once,
and the candidate `aT` is kept in its own spelling. -/
theorem mem_searchIndex_of_two_rows :
    ∃ (lex₀ lex : Lexicon), create "" twoLetters = .ok lex₀ ∧
      lex = lex₀.runHistory
        (withRows [{ word := [0x41, 0x54], vowels := 1 }, { word := [0x54, 0x41] }]) ∧
      lex.HasUpperStore ∧
      lex.AcceptsAll [[0x61, 0x54]] ∧ Word.Unrepeated [[0x61, 0x54]] ∧
      [0x61, 0x54] ∈ lex.searchIndex [.vowels ⟨1, 1⟩] (some [[0x61, 0x54]]) ∧
      Word.Unrepeated (lex.search ⟨[.vowels ⟨1, 1⟩], true⟩ true).1 := by
  have hcreate : create "" twoLetters = .ok _ := rfl
  have hrows : ∀ row ∈ [({ word := [0x41, 0x54], vowels := 1 } : Row), { word := [0x54, 0x41] }],
      row.word.upper = row.word := by decide
  have hupper (lex₀ : Lexicon) := hasUpperStore_withRows lex₀ hrows
  obtain ⟨hiff, -, hsearch⟩ := mem_searchIndex_candidates_iff hcreate (hupper _)
  refine ⟨_, _, hcreate, rfl, hupper _, List.forall_mem_singleton.mpr (by decide +kernel), by decide,
    ?_, hsearch _ true⟩
  refine (hiff [.vowels ⟨1, 1⟩] [[0x61, 0x54]]
    (List.forall_mem_singleton.mpr (by decide +kernel)) (by decide) _).mpr ?_
  refine ⟨by decide, isAskable_ofConditions (by decide)
    (List.forall_mem_singleton.mpr ⟨rfl, rfl, rfl⟩) (by decide +kernel), [0x41, 0x54], ?_, by decide⟩
  rw [searchIndex, findRows_vowels rfl _ (by simp)]
  decide +kernel

/-- With rows of `AT` and `at`, the index finds both, and a search finds `AT` twice in capitals. With
the row of `at` alone, the index finds it at large, but not for the candidate `AT`. -/
theorem searchIndex_of_lower_rows :
    ∃ (lex₀ both lower : Lexicon), create "" twoLetters = .ok lex₀ ∧
      both = lex₀.runHistory
        (withRows [{ word := [0x41, 0x54], vowels := 1 }, { word := [0x61, 0x74], vowels := 1 }]) ∧
      lower = lex₀.runHistory (withRows [{ word := [0x61, 0x74], vowels := 1 }]) ∧
      both.searchIndex [.vowels ⟨1, 1⟩] none = [[0x41, 0x54], [0x61, 0x74]] ∧
      (both.search ⟨[.vowels ⟨1, 1⟩], true⟩ true).1 = [[0x41, 0x54], [0x41, 0x54]] ∧
      lower.searchIndex [.vowels ⟨1, 1⟩] none = [[0x61, 0x74]] ∧
      lower.searchIndex [.vowels ⟨1, 1⟩] (some [[0x41, 0x54]]) = [] := by
  have hplan (lex : Lexicon) (hindexed : lex.isIndexed = true) :
      lex.find ⟨[.vowels ⟨1, 1⟩], true⟩ true =
        (lex.searchIndex [.vowels ⟨1, 1⟩] none).map Word.upper := by
    have hsteps : Plan.ofSpec true ⟨[.vowels ⟨1, 1⟩], true⟩ =
        .all [.index [.vowels ⟨1, 1⟩]] none := by decide +kernel
    rw [find, hindexed, hsteps]
    rfl
  refine ⟨_, _, _, (rfl : create "" twoLetters = .ok _), rfl, rfl, ?_, ?_, ?_, ?_⟩
  · rw [searchIndex, findRows_vowels rfl _ (by decide +kernel)]
    decide +kernel
  · rw [fst_search, hplan _ rfl, searchIndex, findRows_vowels rfl _ (by simp)]
    decide +kernel
  · rw [searchIndex, findRows_vowels rfl _ (by decide +kernel)]
    decide +kernel
  · rw [searchIndex, findRows_vowels rfl _ (by decide +kernel)]
    decide +kernel

end Lexicon

end WordStudy
