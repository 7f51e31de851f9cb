import WordStudy.Proofs.Attributes.Limits
import WordStudy.Proofs.Attributes.Numbering
import WordStudy.Proofs.Lexicon.Search
import WordStudy.Proofs.Word.Alphagram

/-!
# Searches with a store

With a store of the rows that are built for it, a lexicon leaves wide patterns, hooks, lengths and
all that is counted to predicates on the rows, and correlates the rows with the words that the graph
found before. What comes out is **still what the words themselves say**, provided that what is asked
for is not nested deeper than a store allows: a search that asks too much finds nothing.
-/

namespace WordStudy

open Text

/-- A store that answers has a table and meets none of its limits. -/
theorem AttributeStore.find_eq_ok {s : AttributeStore} {predicates : List Predicate}
    {candidates : Option (List Word)} {words : List Word}
    (h : s.find predicates candidates = .ok words) :
    ∃ t, s.table? = some t ∧ words = t.find predicates candidates ∧
      isAskable predicates candidates = true ∧
      meetsLongMask predicates (t.among candidates) = false := by
  cases htable : s.table? with
  | none => simp [find, table, htable, bind, Except.bind] at h
  | some t =>
    simp only [find, table, htable, bind, Except.bind, pure, Except.pure] at h
    -- The store refuses what nests too deep, too long a text, and a row that makes too long a mask.
    split at h
    · cases h
    next hdepth =>
    split at h
    · cases h
    next htexts =>
    split at h
    · cases h
    next hmasks =>
    cases h
    refine ⟨t, rfl, rfl, ?_, Bool.eq_false_iff.mpr hmasks⟩
    exact Bool.and_eq_true_iff.mpr ⟨by simpa using hdepth, by simpa using htexts⟩

/-- A store that has a table and meets none of its limits answers. -/
theorem AttributeStore.find_eq_of_fits {s : AttributeStore} {t : AttributeTable}
    (htable : s.table? = some t) {predicates : List Predicate} {candidates : Option (List Word)}
    (hasked : isAskable predicates candidates = true)
    (hshort : ∀ p ∈ predicates, ∀ row : Row, p.meetsLongMask row = false) :
    s.find predicates candidates = .ok (t.find predicates candidates) := by
  obtain ⟨hdepth, htexts⟩ := Bool.and_eq_true_iff.mp hasked
  simp [find, table, htable, hdepth, htexts, meetsLongMask_eq_false hshort, bind, Except.bind, pure,
    Except.pure]

namespace Lexicon

variable {lex : Lexicon}

/-! ## §1 What a store is asked -/

/-- Nothing that the steps ask the index, each among the words found until then, is **nested too deep
or too long** for a store. -/
def fitsSteps (lex : Lexicon) : Option (List Word) → List PlanStep → Bool
  | _, [] => true
  | found, step :: steps =>
    (match step with
      | .index asked => isAskable (RowQuery.ofConditions asked) found
      | _ => true) &&
    lex.fitsSteps (some (lex.runStep found step)) steps

/-- **What a plan asks the index** is neither nested too deep nor too long. -/
def fitsStore (lex : Lexicon) (plan : Plan) : Bool := plan.branches.all (lex.fitsSteps none)

theorem fitsSteps_graph (lex : Lexicon) (found : Option (List Word)) (asked : List Condition)
    (steps : List PlanStep) : lex.fitsSteps found (.graph asked :: steps) =
      lex.fitsSteps (some (lex.vocabulary.searchMarked asked)) steps := rfl

theorem fitsSteps_index (lex : Lexicon) (found : Option (List Word)) (asked : List Condition)
    (steps : List PlanStep) : lex.fitsSteps found (.index asked :: steps) =
      (isAskable (RowQuery.ofConditions asked) found &&
        lex.fitsSteps (some (lex.searchIndex asked found)) steps) := rfl

/-- A step word by word asks nothing. -/
theorem fitsSteps_wordwise (lex : Lexicon) (found : Option (List Word)) (asked : List Condition) :
    lex.fitsSteps found (Plan.stepOf .wordwise asked) = true := by
  unfold Plan.stepOf
  split <;> rfl

/-- What fits along all steps fits wherever the index is asked. -/
theorem isAskable_of_fitsSteps {found : Option (List Word)} {before : List PlanStep}
    {asked : List Condition} {behind : List PlanStep}
    (h : lex.fitsSteps found (before ++ .index asked :: behind) = true) :
    isAskable (RowQuery.ofConditions asked)
      (before.foldl (fun found step => some (lex.runStep found step)) found) = true := by
  induction before generalizing found with
  | nil => exact (Bool.and_eq_true_iff.mp h).1
  | cons step before ih => exact ih (Bool.and_eq_true_iff.mp h).2

/-! ## §2 Stores that hold the rows of a lexicon -/

/-- **The store holds just the rows** that are built for the lexicon. -/
def StoresItsRows (lex : Lexicon) : Prop :=
  ∃ (store : AttributeStore) (t : AttributeTable) (definitions : Bool)
    (references : List (String × Vocabulary)),
    lex.store = some store ∧ store.table? = some t ∧
      t.toList = (lex.rowSources definitions references).rows

theorem StoresItsRows.isIndexed (h : lex.StoresItsRows) : lex.isIndexed = true := by
  obtain ⟨store, _, _, _, hstore, _⟩ := h
  simp [Lexicon.isIndexed, hstore]

/-- **A store that the rows are put into** holds just the rows, if their numbers fit the columns. -/
theorem IsSound.storesItsRows_attach (h : lex.IsSound) (definitions : Bool)
    (references : List (String × Vocabulary))
    (hfits : ∀ row ∈ (lex.rowSources definitions references).rows, row.FitsColumns) :
    (lex.attach (.inMemory
      (AttributeTable.empty.insert (lex.rowSources definitions references).rows))).StoresItsRows := by
  refine ⟨_, _, definitions, references, rfl, rfl, ?_⟩
  exact RowSources.toList_insert_rows h.vocabulary.forward.sorted.ascending_words hfits

/-- **The numbers of rows that a table holds fit its columns.** -/
theorem fitsColumns_of_toList {s : RowSources} {t : AttributeTable} (hlist : t.toList = s.rows) :
    ∀ w ∈ s.vocabulary.words, (s.rowFor w).FitsColumns := by
  intro w hw
  have hrow : s.rowFor w ∈ t.toList := hlist ▸ List.mem_map_of_mem hw
  obtain ⟨⟨v, row⟩, hmem, heq⟩ := List.mem_map.mp hrow
  exact heq ▸ t.fits v row (Std.TreeMap.mem_toList_iff_getElem?_eq_some.mp hmem)

/-- Rows of few and short words fit their columns. -/
theorem fitsColumns_rows {definitions : Bool} {references : List (String × Vocabulary)}
    (hcount : lex.vocabulary.words.length ≤ maxWord32)
    (hlength : ∀ w ∈ lex.vocabulary.words, w.length ≤ maxWord32) :
    ∀ row ∈ (lex.rowSources definitions references).rows, row.FitsColumns := by
  intro row hrow
  obtain ⟨w, hw, rfl⟩ := List.mem_map.mp hrow
  exact RowSources.fitsColumns_of_few hcount (hlength w hw)

/-- **A condition that the index answers** as the words do: its texts are not too long, and its
range, if it is one, is not empty. -/
structure IsAnswerable (c : Condition) : Prop where
  phase : c.phase true = .index
  modest : c.isModest = true
  range : ∀ (a : RangedAttribute) (r : Bounds), c = a.condition r → r.isEmpty = false

theorem isModest_upper (c : Condition) : c.upper.isModest = c.isModest := by
  cases c with
  | pattern text negated => simp only [Condition.upper, Condition.isModest, Token.read_toUpper]
  | containing letters negated =>
    simp only [Condition.upper, Condition.isModest, Word.upper_ofText_toUpper]
  | _ => rfl

theorem fitsLists_upper (c : Condition) : c.upper.fitsLists = c.fitsLists := by
  cases c with
  | inList words negated =>
    have hsame : (words.map String.toUpper).map String.toUpper = words.map String.toUpper := by
      rw [List.map_map]
      exact List.map_congr_left fun text _ => toUpper_toUpper_text text
    simp only [Condition.upper, Condition.fitsLists, hsame]
  | _ => rfl

/-- The lists that a plan asks the index about are given ones. -/
theorem fitsLists_of_comesFrom {conditions : List Condition}
    (hlists : ∀ c ∈ conditions, c.fitsLists = true) {c : Condition}
    (hcomes : c.ComesFrom conditions) : c.fitsLists = true := by
  rcases hcomes with ⟨-, given, hgiven, rfl⟩ | ⟨a, r, rfl, -⟩
  · exact (fitsLists_upper given).trans (hlists given hgiven)
  · cases a <;> rfl

/-- What a plan asks the index about modest conditions is answerable. -/
theorem isAnswerable_of_comesFrom {conditions : List Condition}
    (hmodest : ∀ c ∈ conditions, c.isModest = true) {c : Condition} (hphase : c.phase true = .index)
    (hcomes : c.ComesFrom conditions) : IsAnswerable c := by
  rcases hcomes with ⟨hranged, given, hgiven, rfl⟩ | ⟨a, r, rfl, hsome⟩
  · -- A given condition, which is no range.
    refine ⟨hphase, (isModest_upper given).trans (hmodest given hgiven), ?_⟩
    intro a r heq
    rw [heq] at hranged
    cases a <;> cases hranged
  · -- A range that was met from given ones; an empty one would have ended the planning.
    refine ⟨hphase, by cases a <;> rfl, ?_⟩
    intro b s heq
    have hsame : r = s := by
      cases a <;> cases b <;> cases heq <;> rfl
    exact hsame ▸ hsome

/-! ## §3 What a row says -/

/-- A word that is spelled in the alphabet belongs to a set as the classifier tells. -/
theorem IsSpelled.member_eq (h : lex.IsSpelled) {w : Word} (hw : w ∈ lex.vocabulary.words)
    (set : StudySet) :
    lex.member set w = lex.classifier.member lex.vocabulary lex.stems set w := by
  rw [member, h w hw, Option.any_some]

/-- **The flags of hooks** say whether the classifier has the word in the set. -/
theorem holds_hookFlags (hsound : lex.IsSound) {w : Word} (hw : w ∈ lex.vocabulary.words)
    (definitions : Bool) (references : List (String × Vocabulary)) {set : StudySet} {p : Predicate}
    (hp : RowQuery.hookFlags set = some p) :
    p.holds ((lex.rowSources definitions references).rowFor w) =
      lex.classifier.member lex.vocabulary lex.stems set w := by
  have hcapitals := hsound.capitals w hw
  have hupper : w.upper = w := Word.upper_of_isUpper hcapitals
  have hascii : w.isAscii = true := Word.IsPlain.isAscii_eq hcapitals.isPlain
  have hfront : ((lex.rowSources definitions references).rowFor w).isFrontHook =
      lex.vocabulary.isFrontHook w := rfl
  have hback : ((lex.rowSources definitions references).rowFor w).isBackHook =
      lex.vocabulary.isBackHook w := rfl
  cases set <;> cases hp <;>
    simp [Predicate.holds, Row.cell, Cell.order_flag, hfront, hback, Classifier.member, hascii,
      hupper]

/-- **A condition on hooks** is told by the flags. -/
theorem holds_inSet (hsound : lex.IsSound) (hspelled : lex.IsSpelled) {w : Word}
    (hw : w ∈ lex.vocabulary.words) {definitions : Bool}
    {references : List (String × Vocabulary)} {set : StudySet} {negated : Bool}
    (hphase : (Condition.inSet set negated).phase true = .index) :
    (RowQuery.ofCondition (.inSet set negated)).all
        (·.holds ((lex.rowSources definitions references).rowFor w)) =
      (lex.member set w != negated) := by
  -- Only the sets of hooks are left to the index.
  obtain ⟨p, hp⟩ : ∃ p, RowQuery.hookFlags set = some p := by
    cases set <;> first | exact ⟨_, rfl⟩ | cases hphase
  have hholds := holds_hookFlags hsound hw definitions references hp
  rw [hspelled.member_eq hw, ← hholds, RowQuery.ofCondition, hp]
  cases negated <;> simp [Predicate.holds]

/-- **The count of anagrams** is the number of words that are rearranged, in 32 bits. -/
theorem IsSound.count_anagrams (h : lex.IsSound) {w : Word} (hw : w ∈ lex.vocabulary.words) :
    (AnagramCounts.ofWords lex.vocabulary.words).count w =
      lex.vocabulary.words.countP (fun v => v.isPerm w) % (maxWord32 + 1) := by
  rw [(AnagramCounts.areOf_ofWords _).count_eq]
  congr 1
  -- Rows with the same sorted letters are counted; for capitals these are the rearrangements.
  apply List.countP_congr
  intro v hv
  rw [beq_iff_eq, (h.capitals v hv).isPlain.alphagram_eq_iff_perm, h.upper_eq hw, List.isPerm_iff]

/-- **Where the rows fit their columns**, they count all words that are rearranged. -/
theorem IsSound.anagrams_rowFor (h : lex.IsSound) {definitions : Bool}
    {references : List (String × Vocabulary)}
    (hfits : ∀ w ∈ lex.vocabulary.words,
      ((lex.rowSources definitions references).rowFor w).FitsColumns)
    {w : Word} (hw : w ∈ lex.vocabulary.words) :
    ((lex.rowSources definitions references).rowFor w).anagrams =
      lex.vocabulary.words.countP fun v => v.isPerm w := by
  have hle := RowSources.countP_isPerm_le_of_fitsColumns (s := lex.rowSources definitions references)
    (fun _ hv => h.upper_eq hv) h.vocabulary.forward.sorted.ascending_words.nodup hfits w
  exact (h.count_anagrams hw).trans (Nat.mod_eq_of_lt (Nat.lt_succ_of_le hle))

/-- **A row says of its word** what the word says itself, if its numbers fit the columns. -/
theorem holds_ofCondition (hsound : lex.IsSound) (hspelled : lex.IsSpelled) {definitions : Bool}
    {references : List (String × Vocabulary)} {c : Condition} (hc : IsAnswerable c) {w : Word}
    (hw : w ∈ lex.vocabulary.words)
    (hfits : ∀ w ∈ lex.vocabulary.words,
      ((lex.rowSources definitions references).rowFor w).FitsColumns) :
    (RowQuery.ofCondition c).all (·.holds ((lex.rowSources definitions references).rowFor w)) =
      lex.readsIndexed w c := by
  obtain ⟨hphase, hmodest, hrange⟩ := hc
  let row := (lex.rowSources definitions references).rowFor w
  have hcapitals : row.word.InCapitals := hsound.capitals w hw
  have hwithin : RowSources.IsWithin lex.vocabulary.words.length (lex.ranks w) :=
    RowSources.isWithin_allRanks lex.bag lex.vocabulary.words w
  have hnumber (column : Column) {n : Nat} (hcell : row.cell column = .number n)
      (hn : n ∈ row.numbers) (r : Bounds) :
      ([Predicate.range column r]).all (·.holds row) = r.contains n := by
    rw [List.all_cons, List.all_nil, Bool.and_true, RowQuery.holds_range row column hcell (hfits w hw n hn)]
  cases c with
  | pattern text negated =>
    have hwide : isWidePattern text = true := by
      simp only [Condition.phase, Bool.true_and] at hphase
      split at hphase
      · assumption
      · cases hphase
    rw [readsIndexed_eq_fits rfl rfl]
    exact RowQuery.holds_pattern hwide hmodest hcapitals
  | length r =>
    rw [readsIndexed_eq_fits rfl rfl]
    exact hnumber .length rfl (by simp [Row.numbers]) r
  | vowels r =>
    rw [readsIndexed_eq_describes rfl rfl]
    exact hnumber .vowels rfl (by simp [Row.numbers]) r
  | distinct r =>
    rw [readsIndexed_eq_describes rfl rfl]
    exact hnumber .distinct rfl (by simp [Row.numbers]) r
  | points r =>
    rw [readsIndexed_eq_describes rfl rfl]
    exact hnumber .points rfl (by simp [Row.numbers]) r
  | anagrams r =>
    rw [readsIndexed_eq_describes rfl rfl, describes, ← hsound.anagrams_rowFor hfits hw]
    exact hnumber .anagrams rfl (by simp [Row.numbers]) r
  | rank r lax =>
    rw [readsIndexed_eq_describes rfl rfl]
    cases lax with
    | false => exact hnumber .rank rfl (by simp [Row.numbers]) r
    | true =>
      -- Two predicates on the ends of the tie; they overlap a range only if it is not empty.
      have hlast : (lex.ranks w).lastTied ≤ maxWord32 :=
        hfits w hw row.lastTied (by simp [row, Row.numbers])
      exact RowQuery.holds_laxRank rfl rfl hwithin.tied hlast (hrange (.rank true) r rfl)
  | containing letters negated =>
    rw [readsIndexed_eq_describes rfl rfl]
    cases negated with
    | false => exact RowQuery.holds_containing hmodest hcapitals
    | true => exact RowQuery.holds_not_containing letters hcapitals
  | inSet set negated =>
    rw [readsIndexed_eq_satisfies rfl rfl]
    exact holds_inSet hsound hspelled hw hphase
  | inList words negated =>
    rw [readsIndexed_eq_describes rfl rfl]
    exact RowQuery.holds_inList words negated
  | _ => cases hphase

/-! ## §4 Rows and the words found before -/

/-- **The spellings of the words found before**, each under its upper case. -/
theorem map_upper_getElem?_spelling (words : List Word) (w : Word) :
    ((words.foldl (fun spelling v => spelling.insert v.upper v) (∅ : Std.TreeMap Word Word))[w]?).map
        Word.upper = if words.any (·.upper == w) then some w else none := by
  -- Along the fold, `known` says whether a spelling of the word was met.
  have hfold (spelling : Std.TreeMap Word Word) (known : Bool)
      (hknown : (spelling[w]?).map Word.upper = if known then some w else none) :
      ((words.foldl (fun spelling v => spelling.insert v.upper v) spelling)[w]?).map Word.upper =
        if known || words.any (·.upper == w) then some w else none := by
    induction words generalizing spelling known with
    | nil => simpa using hknown
    | cons v words ih =>
      rw [List.foldl_cons, List.any_cons, ← Bool.or_assoc]
      apply ih
      rw [Std.TreeMap.getElem?_insert]
      by_cases hv : v.upper = w
      · simp [hv]
      · simpa [hv] using hknown
  simpa using hfold ∅ false (by simp)

variable {conditions : List Condition}

/-- **A row stands for the word found before** that has it for its upper case. -/
theorem map_upper_searchIndex {words : List Word}
    (h : ∀ w ∈ lex.findRows conditions (some words), words.any (·.upper == w) = true) :
    (lex.searchIndex conditions (some words)).map Word.upper =
      lex.findRows conditions (some words) := by
  rw [searchIndex, List.map_filterMap]
  refine (List.filterMap_congr fun w hw => ?_).trans List.filterMap_some
  have hbefore := h w hw
  obtain ⟨v, -, hv⟩ := List.any_eq_true.mp hbefore
  have hupper : w.upper = w := by
    rw [← beq_iff_eq.mp hv, Word.upper_upper]
  rw [hupper, map_upper_getElem?_spelling, hbefore, if_pos rfl]

/-- **The rows that are found** are those of which the predicates hold, of the words found before if
there are any, as long as no limit of the store is met. -/
theorem findRows_eq_filter_holds {store : AttributeStore} {t : AttributeTable} {definitions : Bool}
    {references : List (String × Vocabulary)} (hstore : lex.store = some store)
    (htable : store.table? = some t) (hlist : t.toList = (lex.rowSources definitions references).rows)
    {found : Option (List Word)}
    (hasked : isAskable (RowQuery.ofConditions conditions) found = true)
    (hmasks : ∀ p ∈ RowQuery.ofConditions conditions, ∀ row : Row, p.meetsLongMask row = false) :
    lex.findRows conditions found = lex.vocabulary.words.filter fun w =>
      found.all (fun words => words.any (·.upper == w)) &&
        (RowQuery.ofConditions conditions).all
          (·.holds ((lex.rowSources definitions references).rowFor w)) := by
  rw [findRows, hstore, Option.elim_some, AttributeStore.find_eq_of_fits htable hasked hmasks]
  exact RowSources.find_eq_filter hlist _ _

/-- **The rows that are found** are those of which the conditions hold. -/
theorem findRows_eq_filter (hsound : lex.IsSound) (hspelled : lex.IsSpelled)
    (hrows : lex.StoresItsRows) (hconditions : ∀ c ∈ conditions, IsAnswerable c)
    {found : Option (List Word)}
    (hasked : isAskable (RowQuery.ofConditions conditions) found = true) :
    lex.findRows conditions found = lex.vocabulary.words.filter fun w =>
      found.all (fun words => words.any (·.upper == w)) && conditions.all (lex.readsIndexed w) := by
  obtain ⟨store, t, definitions, references, hstore, htable, hlist⟩ := hrows
  -- No answerable condition makes a mask that is too long, whatever the row.
  have hmasks : ∀ p ∈ RowQuery.ofConditions conditions, ∀ row : Row,
      p.meetsLongMask row = false := by
    intro p hp row
    obtain ⟨c, hc, hpc⟩ := List.mem_flatMap.mp hp
    exact RowQuery.meetsLongMask_ofCondition (hconditions c hc).phase (hconditions c hc).modest
      row p hpc
  rw [findRows_eq_filter_holds hstore htable hlist hasked hmasks]
  apply List.filter_congr
  intro w hw
  rw [RowQuery.all_ofConditions]
  congr 1
  rw [Bool.eq_iff_iff, List.all_eq_true, List.all_eq_true]
  refine forall₂_congr fun c hc => ?_
  rw [holds_ofCondition hsound hspelled (hconditions c hc) hw (fitsColumns_of_toList hlist)]

/-- Every row is one of a word, so that the index alone **rejects none** that it finds. -/
theorem IsSound.searchIndex_none (hsound : lex.IsSound)
    (hfound : ∀ w ∈ lex.findRows conditions none, w ∈ lex.vocabulary.words) :
    lex.searchIndex conditions none = lex.findRows conditions none := by
  rw [searchIndex, List.filter_eq_self]
  intro w hw
  exact (hsound.vocabulary.contains_iff w).mpr ((hsound.upper_eq (hfound w hw)).symm ▸ hfound w hw)

/-- **The index answers** its conditions, whether words were found before or not. -/
theorem index_answers (hsound : lex.IsSound) (hspelled : lex.IsSpelled)
    (hrows : lex.StoresItsRows) (hconditions : ∀ c ∈ conditions, IsAnswerable c)
    {found : Option (List Word)}
    (hasked : isAskable (RowQuery.ofConditions conditions) found = true) :
    lex.StepAnswers lex.readsIndexed found (.index conditions) := by
  intro p hp
  have hfound := findRows_eq_filter hsound hspelled hrows hconditions hasked
  show (lex.searchIndex conditions found).map Word.upper = _
  cases found with
  -- Without candidates every row that is found is a word of the graph.
  | none =>
    have hwords : ∀ w ∈ lex.findRows conditions none, w ∈ lex.vocabulary.words := by
      intro w hw
      rw [hfound] at hw
      exact (List.mem_filter.mp hw).1
    rw [hsound.searchIndex_none hwords, hsound.map_upper_eq hwords, hfound]
    apply List.filter_congr
    intro w hw
    rw [hp w hw]
    rfl
  | some words =>
    have hmap : (lex.searchIndex conditions (some words)).map Word.upper =
        lex.findRows conditions (some words) := by
      apply map_upper_searchIndex
      intro w hw
      rw [hfound] at hw
      exact (Bool.and_eq_true_iff.mp (List.mem_filter.mp hw).2).1
    have hwords : words.map Word.upper = lex.vocabulary.words.filter p := hp
    rw [hmap, hfound]
    apply List.filter_congr
    intro w hw
    -- The candidates are the words that met the conditions of the steps before.
    have hbefore : words.any (·.upper == w) = p w := by
      have hany : (words.map Word.upper).any (· == w) = words.any (·.upper == w) := List.any_map
      rw [← hany, hwords, Bool.eq_iff_iff]
      simp [hw]
    rw [Option.all_some, hbefore]
    rfl

/-! ## §5 Plans that a store can answer -/

/-- **With a store, every phase answers** the reading of what the words say. -/
theorem readsSoundly_readsIndexed (hindexed : lex.isIndexed = true) :
    lex.ReadsSoundly lex.readsIndexed where
  phases := by
    -- With a store each phase reads its own conditions, and no other phase sees them.
    constructor
    · intro w c hc
      rw [hindexed] at hc
      exact readsIndexed_eq_fits (satisfies_of_phase_graph hc) (describes_of_phase_graph hc)
    · intro w r
      exact readsIndexed_eq_fits rfl rfl
    · intro w c hc
      rw [hindexed] at hc
      exact readsIndexed_eq_satisfies (fits_of_phase_wordwise hc) (describes_of_phase_wordwise hc)
    · intro hunindexed
      rw [hindexed] at hunindexed
      cases hunindexed
  reading w _ := lex.soundReading_readsIndexed w
  window w range lax legacy := rfl

/-- **A plan that fits the store** is answered by it. -/
theorem planAnswers_of_fitsStore (hsound : lex.IsSound) (hspelled : lex.IsSpelled)
    (hrows : lex.StoresItsRows) {spec : SearchSpec}
    (hmodest : ∀ c ∈ spec.conditions, c.isModest = true)
    (hfits : lex.fitsStore (Plan.ofSpec lex.isIndexed spec) = true) :
    lex.PlanAnswers lex.readsIndexed (Plan.ofSpec lex.isIndexed spec) := by
  rintro _ hsteps before asked behind rfl
  have hasked : PlanStep.index asked ∈ before ++ .index asked :: behind := by simp
  obtain ⟨hindexed, hcomes⟩ := Plan.comesFrom_of_index_mem hsteps hasked
  apply index_answers hsound hspelled hrows
  · intro c hc
    obtain ⟨hphase, hc⟩ := hcomes c hc
    exact isAnswerable_of_comesFrom hmodest (hindexed ▸ hphase) hc
  · exact isAskable_of_fitsSteps (List.all_eq_true.mp hfits _ hsteps)

/-- Import words and attach a store of their rows. -/
def stock (lex : Lexicon) (words : List Word) : List LexiconStep :=
  [.importWords words,
    .attach (.inMemory (AttributeTable.empty.insert
      ((lex.runHistory [.importWords words]).rowSources false []).rows))]

theorem isTextual_stock (lex : Lexicon) (words : List Word) :
    ∀ step ∈ lex.stock words, step.isTextual = true := by
  simp [stock, LexiconStep.isTextual]

/-- Words that are not more, nor longer, than numbers of 32 bits can tell are stored with their
rows. -/
theorem IsSound.storesItsRows_stock (h : lex.IsSound) (words : List Word)
    (hcount : (lex.runHistory [.importWords words]).vocabulary.words.length ≤ maxWord32)
    (hlength : ∀ w ∈ (lex.runHistory [.importWords words]).vocabulary.words,
      w.length ≤ maxWord32) :
    (lex.runHistory (lex.stock words)).StoresItsRows :=
  (h.runHistory [.importWords words]).storesItsRows_attach false [] (fitsColumns_rows hcount hlength)

end Lexicon

end WordStudy
