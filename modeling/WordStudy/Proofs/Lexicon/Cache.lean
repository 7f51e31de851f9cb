import WordStudy.Proofs.Attributes.Ranks
import WordStudy.Proofs.Lexicon.Search

/-!
# The cache of rows

Rows come into the cache in bulk behind a search and one by one as words are looked up. They go when
a store is attached or given up, when an image is imported and when the cache is filled anew. Through
all of this **every row in the cache was given by the store that is attached**, so that a word is
looked up as if there were no cache. A store whose rows are changed behind the back of the lexicon is
another matter: old rows go with the next search that finds something, and with no other.
-/

namespace WordStudy

/-- The operation only asks: it imports nothing, and neither attaches nor detaches a store. -/
def LexiconStep.isQuestion : LexiconStep → Bool
  | .search .. => true
  | .row _ => true
  | .refreshCache _ => true
  | _ => false

/-! ## §1 Rows of a store -/

/-- **What holds of all rows** holds after others were put in, if it holds of these under their
words. -/
theorem AttributeTable.forall_row?_insert {p : Word → Row → Prop} {t : AttributeTable}
    (hold : ∀ w row, t.row? w = some row → p w row) {rows : List Row}
    (hnew : ∀ row ∈ rows, p row.word row.cut) :
    ∀ w row, (t.insert rows).row? w = some row → p w row := by
  apply List.foldlRecOn
    (motive := fun t : AttributeTable => ∀ w row, t.row? w = some row → p w row)
  · exact hold
  · intro t ht row hmem w row' hrow
    rw [row?, put, Std.TreeMap.getElem?_insert] at hrow
    split at hrow
    · next hsame =>
      obtain rfl := Std.LawfulEqCmp.eq_of_compare hsame
      cases hrow
      exact hnew row hmem
    · exact ht w row' hrow

/-- The rows of a table are those that lie under their own words. -/
theorem AttributeTable.mem_toList {t : AttributeTable} (row : Row) :
    row ∈ t.toList ↔ t.row? row.word = some row := by
  rw [toList, List.mem_map]
  constructor
  · rintro ⟨⟨w, row'⟩, he, rfl⟩
    have hrow : t.row? w = some row' := Std.TreeMap.mem_toList_iff_getElem?_eq_some.mp he
    rw [t.keyed w row' hrow]
    exact hrow
  · exact fun hrow => ⟨(row.word, row), Std.TreeMap.mem_toList_iff_getElem?_eq_some.mpr hrow, rfl⟩

theorem mem_keys_upperSet (words : List Word) (w : Word) :
    w ∈ (upperSet words).keys ↔ ∃ v ∈ words, v.upper = w := by
  rw [Std.TreeMap.mem_keys, ← Std.TreeMap.contains_iff_mem, contains_upperSet, List.any_eq_true]
  simp only [beq_iff_eq]

theorem keys_upperSet_singleton (w : Word) : (upperSet [w]).keys = [w.upper] := by
  have hsorted : Word.Ascending (upperSet [w]).keys := (upperSet [w]).ordered_keys
  apply hsorted.eq_of_mem_iff (List.pairwise_singleton ..)
  intro v
  rw [mem_keys_upperSet]
  simp [eq_comm]

theorem AttributeTable.rowsFor_eq_filterMap (t : AttributeTable) (words : List Word) :
    t.rowsFor words = (upperSet words).keys.filterMap t.row? := by
  rw [← Std.TreeMap.map_fst_toList_eq_keys, List.filterMap_map]
  rfl

namespace AttributeStore

/-- The row that the store has under a word, `none` also if it cannot be read. -/
def stored? (s : AttributeStore) (w : Word) : Option Row := s.table?.bind (·.row? w)

/-- A row lies under its own word. -/
theorem word_eq {s : AttributeStore} {w : Word} {row : Row} (hrow : s.stored? w = some row) :
    row.word = w := by
  obtain ⟨t, -, hrow⟩ := Option.bind_eq_some_iff.mp hrow
  exact t.keyed w row hrow

/-- **The rows that a store gives for words** are those that it has for them in upper case. -/
theorem mem_rowsFor_iff {s : AttributeStore} {words : List Word} {rows : List Row}
    (h : s.rowsFor words = .ok rows) (row : Row) :
    row ∈ rows ↔ ∃ v ∈ words, s.stored? v.upper = some row := by
  unfold rowsFor at h
  split at h
  · next hempty =>
    cases h
    simp [List.isEmpty_iff.mp hempty]
  cases htable : s.table? with
  -- Without a table the store answers with a fault, so there are no rows.
  | none => simp [table, htable, bind, Except.bind] at h
  | some t =>
    simp only [table, htable, bind, Except.bind, pure, Except.pure, Except.ok.injEq] at h
    subst h
    rw [t.rowsFor_eq_filterMap, List.mem_filterMap]
    simp only [mem_keys_upperSet, stored?, htable, Option.bind_some]
    constructor
    · rintro ⟨_, ⟨v, hv, rfl⟩, hrow⟩
      exact ⟨v, hv, hrow⟩
    · rintro ⟨v, hv, hrow⟩
      exact ⟨v.upper, ⟨v, hv, rfl⟩, hrow⟩

/-- A store that gives no rows for words, because it cannot be read, has none. -/
theorem stored?_of_rowsFor_error {s : AttributeStore} {words : List Word} {fault : StoreFault}
    (h : s.rowsFor words = .error fault) (w : Word) : s.stored? w = none := by
  cases htable : s.table? with
  | none => simp [stored?, htable]
  | some t =>
    unfold rowsFor at h
    split at h
    · cases h
    · simp [table, htable, bind, Except.bind, pure, Except.pure] at h

end AttributeStore

namespace Lexicon

variable {lex : Lexicon}

/-- The store is asked for a word in upper case. -/
theorem storedRow_eq (lex : Lexicon) (w : Word) :
    lex.storedRow w = lex.store.bind (·.stored? w.upper) := by
  unfold storedRow
  cases lex.store with
  | none => rfl
  | some store =>
    -- One word has one key, so that there is one row or none.
    have hrows (t : AttributeTable) : (t.rowsFor [w]).head? = t.row? w.upper := by
      rw [t.rowsFor_eq_filterMap, keys_upperSet_singleton]
      cases ht : t.row? w.upper <;> simp [ht]
    cases htable : store.table? with
    | none =>
      simp [AttributeStore.row?, AttributeStore.rowsFor, AttributeStore.table, htable, bind,
        Except.bind, AttributeStore.stored?]
    | some t =>
      simp [AttributeStore.row?, AttributeStore.rowsFor, AttributeStore.table, htable, bind,
        Except.bind, pure, Except.pure, hrows, AttributeStore.stored?]

/-! ## §2 Rows that are kept -/

/-- **Every row in the cache was given by the store**: the store has it for a word in upper case, and
it is kept under its own word or under that in upper case. -/
def CachesItsRows (lex : Lexicon) : Prop :=
  ∀ w row, lex.cache.get? w = some row → (w = row.word ∨ w = row.word.upper) ∧
    ∃ v : Word, v.upper = v ∧ lex.store.bind (·.stored? v) = some row

/-- A lexicon that was created has neither a store nor rows. -/
theorem view_of_create {name : String} {settings : Settings} (h : create name settings = .ok lex) :
    lex.store = none ∧ lex.cache = .empty := by
  obtain ⟨bag, -, rfl⟩ := create_eq_ok h
  exact ⟨rfl, rfl⟩

theorem cachesItsRows_of_empty (h : lex.cache = .empty) : lex.CachesItsRows := by
  intro w row hrow
  simp [h, RowCache.get?, RowCache.empty] at hrow

/-- A cache that was filled has the rows that the store gave, or none. -/
theorem cache_refreshCache (lex : Lexicon) (words : List Word) :
    ((lex.refreshCache words).cache = .empty ∧
      ∀ v ∈ words, lex.store.bind (·.stored? v.upper) = none) ∨
      ∃ store rows, lex.store = some store ∧ store.rowsFor words = .ok rows ∧
        (lex.refreshCache words).cache =
          ⟨(rows.map fun row => (row.word, row)).foldl
            (fun entries e => entries.insert e.1 e.2) ∅⟩ := by
  unfold Lexicon.refreshCache
  -- The cache is filled only if the store gives rows; else it stays cleared.
  cases hstore : lex.store with
  | none => exact .inl ⟨rfl, by simp⟩
  | some store =>
    cases hrows : store.rowsFor words with
    | error fault =>
      left
      refine ⟨by simp [RowCache.populate, hrows, bind, Except.bind], ?_⟩
      exact fun v _ => AttributeStore.stored?_of_rowsFor_error hrows v.upper
    | ok rows =>
      right
      refine ⟨store, rows, rfl, hrows, ?_⟩
      simp [RowCache.populate, RowCache.empty, hrows, bind, Except.bind, pure, Except.pure,
        List.foldl_map]

/-- **Filling the cache** leaves rows of the store only, whatever was there before. -/
theorem cachesItsRows_refreshCache (lex : Lexicon) (words : List Word) :
    (lex.refreshCache words).CachesItsRows := by
  rcases lex.cache_refreshCache words with ⟨hcache, -⟩ | ⟨store, rows, hstore, hrows, hcache⟩
  · exact cachesItsRows_of_empty hcache
  · intro w row hw
    rw [hcache] at hw
    -- Each entry comes from a row the store gave, filed under the row's own word.
    refine forall_getElem?_foldl_insert (p := fun w row => (w = row.word ∨ w = row.word.upper) ∧
      ∃ v : Word, v.upper = v ∧ lex.store.bind (·.stored? v) = some row) _ (by simp) ?_ w row hw
    intro e he
    obtain ⟨row, hrow, rfl⟩ := List.mem_map.mp he
    obtain ⟨v, -, hv⟩ := (AttributeStore.mem_rowsFor_iff hrows row).mp hrow
    refine ⟨.inl rfl, v.upper, Word.upper_upper v, ?_⟩
    rw [hstore]
    exact hv

/-- **Looking a word up** keeps at most the row that the store gives. -/
theorem CachesItsRows.row (h : lex.CachesItsRows) (w : Word) : (lex.row w).2.CachesItsRows := by
  rcases lex.snd_row w with heq | ⟨row, hrow, heq⟩
  · rw [heq]
    exact h
  · rw [heq]
    intro v row' hv
    simp only [RowCache.get?, RowCache.insert, Std.TreeMap.getElem?_insert] at hv
    split at hv
    -- The row is kept under its own word; all others stay as they were.
    · next hkey =>
      obtain rfl := Std.LawfulEqCmp.eq_of_compare hkey
      cases hv
      rw [storedRow_eq] at hrow
      exact ⟨.inr rfl, _, Word.upper_upper _, hrow⟩
    · exact h v row' hv

/-- Importing words changes neither the store nor the cache. -/
theorem importEntries_view (lex : Lexicon) (entries : List WordEntry) (definitions : Bool) :
    (lex.importEntries entries definitions).1.store = lex.store ∧
      (lex.importEntries entries definitions).1.cache = lex.cache := by
  unfold importEntries
  apply List.foldlRecOn
    (motive := fun read : Lexicon × Nat => read.1.store = lex.store ∧ read.1.cache = lex.cache)
  · exact ⟨rfl, rfl⟩
  · intro read hread entry _
    dsimp only
    split <;> exact hread

/-- An image that is refused changes nothing; one that is accepted clears the cache. -/
theorem loadImage_view (lex : Lexicon) (bytes : List UInt8) (backwards : Bool)
    (expected : Option (BitVec 16)) :
    (lex.loadImage bytes backwards expected).store = lex.store ∧
      ((lex.loadImage bytes backwards expected).cache = lex.cache ∨
        (lex.loadImage bytes backwards expected).cache = .empty) := by
  rcases lex.loadImage_eq bytes backwards expected with heq | ⟨v, -, heq⟩
  · rw [heq]
    exact ⟨rfl, .inl rfl⟩
  · rw [heq]
    exact ⟨rfl, .inr rfl⟩

theorem CachesItsRows.of_view {other : Lexicon} (h : lex.CachesItsRows)
    (hstore : other.store = lex.store) (hcache : other.cache = lex.cache) :
    other.CachesItsRows := by
  unfold CachesItsRows
  rw [hstore, hcache]
  exact h

/-- **Every operation keeps rows of the store only**: what gives the store up clears the cache. -/
theorem CachesItsRows.perform (h : lex.CachesItsRows) (step : LexiconStep) :
    (lex.perform step).CachesItsRows := by
  -- Whatever changes the store or the words clears the cache; only a search fills it.
  cases step with
  | importEntries entries definitions =>
    obtain ⟨hstore, hcache⟩ := lex.importEntries_view entries definitions
    exact h.of_view hstore hcache
  | importWords words =>
    obtain ⟨hstore, hcache⟩ := lex.importEntries_view (words.map fun w => ⟨w, none⟩) false
    exact h.of_view hstore hcache
  | importImage bytes backwards expected =>
    obtain ⟨hstore, hcache | hcache⟩ := lex.loadImage_view bytes backwards expected
    · exact h.of_view hstore hcache
    · exact cachesItsRows_of_empty hcache
  | importStems stems => exact h.of_view rfl rfl
  | attach store => exact cachesItsRows_of_empty rfl
  | detach => exact cachesItsRows_of_empty rfl
  | search spec capitals =>
    show (lex.search spec capitals).2.CachesItsRows
    rw [snd_search]
    split
    · exact h
    · exact lex.cachesItsRows_refreshCache _
  | row w => exact h.row w
  | refreshCache words => exact lex.cachesItsRows_refreshCache words

theorem CachesItsRows.runHistory (h : lex.CachesItsRows) (steps : List LexiconStep) :
    (lex.runHistory steps).CachesItsRows := by
  apply List.foldlRecOn (motive := CachesItsRows)
  · exact h
  · exact fun lex' hlex step _ => hlex.perform step

/-- **What only asks** changes the cache only. -/
theorem perform_of_isQuestion (lex : Lexicon) {step : LexiconStep} (h : step.isQuestion = true) :
    ∃ cache, lex.perform step = { lex with cache } := by
  -- A question reads the store and may fill the cache, and it changes nothing else.
  cases step with
  | search spec capitals =>
    show ∃ cache, (lex.search spec capitals).2 = _
    rw [snd_search]
    split
    · exact ⟨lex.cache, rfl⟩
    · exact ⟨_, rfl⟩
  | row w =>
    show ∃ cache, (lex.row w).2 = _
    rcases lex.snd_row w with heq | ⟨row, -, heq⟩
    · exact ⟨lex.cache, heq⟩
    · exact ⟨_, heq⟩
  | refreshCache words => exact ⟨_, rfl⟩
  | _ => cases h

theorem runHistory_of_isQuestion (lex : Lexicon) {questions : List LexiconStep}
    (h : ∀ step ∈ questions, step.isQuestion = true) :
    ∃ cache, lex.runHistory questions = { lex with cache } := by
  apply List.foldlRecOn (motive := fun asked : Lexicon => ∃ cache, asked = { lex with cache })
  · exact ⟨lex.cache, rfl⟩
  · rintro _ ⟨cache, rfl⟩ step hstep
    exact perform_of_isQuestion _ (h step hstep)

end Lexicon

/-! ## §3 The store that is attached -/

/-- The store after an operation. -/
def LexiconStep.storeAfter (store? : Option AttributeStore) : LexiconStep → Option AttributeStore
  | .attach store => some store
  | .detach => none
  | _ => store?

/-- **The store that is attached** after operations on a lexicon that had none: the last one that was
attached and not given up. -/
def attachedStore (steps : List LexiconStep) : Option AttributeStore :=
  steps.foldl LexiconStep.storeAfter none

/-- **The row that a store has for a word** in upper case. There is none without a store, and none
for the empty word. -/
def rowIn (store? : Option AttributeStore) (w : Word) : Option Row :=
  if w.isEmpty then none else store?.bind (·.stored? w.upper)

namespace Lexicon

variable {lex : Lexicon}

theorem store_perform_of_isQuestion (lex : Lexicon) {step : LexiconStep}
    (h : step.isQuestion = true) : (lex.perform step).store = lex.store := by
  obtain ⟨cache, hcache⟩ := lex.perform_of_isQuestion h
  rw [hcache]

theorem store_perform (lex : Lexicon) (step : LexiconStep) :
    (lex.perform step).store = step.storeAfter lex.store := by
  cases step with
  | importEntries entries definitions => exact (lex.importEntries_view entries definitions).1
  | importWords words => exact (lex.importEntries_view _ _).1
  | importImage bytes backwards expected => exact (lex.loadImage_view bytes backwards expected).1
  | search spec capitals => exact lex.store_perform_of_isQuestion rfl
  | row w => exact lex.store_perform_of_isQuestion rfl
  | _ => rfl

theorem store_runHistory (lex : Lexicon) (steps : List LexiconStep) :
    (lex.runHistory steps).store = steps.foldl LexiconStep.storeAfter lex.store := by
  induction steps generalizing lex with
  | nil => rfl
  | cons step steps ih =>
    show ((lex.perform step).runHistory steps).store = _
    rw [ih, store_perform]
    rfl

/-! ## §4 Looking words up -/

/-- **A word is looked up as if there were no cache**, if the rows of the cache are from the store. -/
theorem CachesItsRows.fst_row (h : lex.CachesItsRows) (w : Word) :
    (lex.row w).1 = rowIn lex.store w := by
  have hempty : w.upper.isEmpty = w.isEmpty := by simp [Word.upper]
  unfold Lexicon.row rowIn
  dsimp only
  rw [hempty]
  split
  · rfl
  split
  · next row hrow =>
    -- What lies in the cache is the row that the store has for this word and for no other.
    obtain ⟨hplace, v, hupper, hv⟩ := h _ _ hrow
    obtain ⟨store, hstore, hstored⟩ := Option.bind_eq_some_iff.mp hv
    have hword : row.word = v := AttributeStore.word_eq hstored
    have hsame : w.upper = v := by
      rw [hword, hupper, or_self] at hplace
      exact hplace
    rw [hsame]
    exact hv.symm
  · rw [storedRow_eq, Word.upper_upper]
    cases lex.store.bind (·.stored? w.upper) <;> rfl

/-- **After any operations**, words are looked up in the store that is attached then. -/
theorem CachesItsRows.fst_row_runHistory (h : lex.CachesItsRows) (steps : List LexiconStep)
    (w : Word) :
    ((lex.runHistory steps).row w).1 =
      rowIn (steps.foldl LexiconStep.storeAfter lex.store) w := by
  rw [(h.runHistory steps).fst_row, store_runHistory]

/-- **The cache is never seen.** Whatever was imported, looked up, searched for, attached and given
up, the row of a word is the one that the store attached last has for the word in upper case. No
other row is found: none of a store attached before, none without a store, and none for the empty
word or for a word that the store lacks. All that is asked of a row is answered accordingly. -/
theorem row_eq_rowIn_attachedStore {name : String} {settings : Settings} {lex₀ : Lexicon}
    (hcreate : create name settings = .ok lex₀) (steps : List LexiconStep) (w : Word) :
    ((lex₀.runHistory steps).row w).1 = rowIn (attachedStore steps) w ∧
    ∀ (α : Type) (stored : Row → α) (found : α),
      (lex₀.runHistory steps).lookUp w stored found =
        ((rowIn (attachedStore steps) w).elim found stored,
          lex₀.runHistory (steps ++ [.row w])) := by
  obtain ⟨hstore, hcache⟩ := view_of_create hcreate
  have hrow : ((lex₀.runHistory steps).row w).1 = rowIn (attachedStore steps) w := by
    rw [(cachesItsRows_of_empty hcache).fst_row_runHistory, hstore]
    rfl
  refine ⟨hrow, ?_⟩
  intro α stored found
  have hafter : lex₀.runHistory (steps ++ [.row w]) = ((lex₀.runHistory steps).row w).2 :=
    List.foldl_append
  rw [hafter, ← hrow]
  rfl

/-- A row of `AT` that says that it has so many vowels. -/
def rowOfAt (vowels : Nat) : Row := { word := [0x41, 0x54], vowels }

/-- A store of one row. -/
def storeOf (row : Row) : AttributeStore := .inMemory (AttributeTable.empty.insert [row])

/-- `AT` is looked up in a store that tells of 1 vowel. Then another store, which tells of 2, is
attached, and a search finds `AT`. -/
def lookedUpTwice : List LexiconStep :=
  [.importWords [[0x41, 0x54]], .attach (storeOf (rowOfAt 1)), .row [0x41, 0x54],
    .attach (storeOf (rowOfAt 2)), .search ⟨[.pattern "A?" false], true⟩ true]

/-- What is told of `at` is what the second store says. -/
theorem lookUp_of_second_store :
    ∃ lex₀ : Lexicon, create "" twoLetters = .ok lex₀ ∧
      ((lex₀.runHistory lookedUpTwice).lookUp [0x61, 0x74] (·.vowels) 0).1 = 2 := by
  have hcreate : create "" twoLetters = .ok _ := rfl
  refine ⟨_, hcreate, ?_⟩
  obtain ⟨-, hlookUp⟩ := row_eq_rowIn_attachedStore hcreate lookedUpTwice [0x61, 0x74]
  rw [hlookUp]
  decide +kernel

/-! ## §5 Behind a search -/

end Lexicon

end WordStudy
