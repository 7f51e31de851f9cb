import Mathlib.Logic.Relation
import WordStudy.Graph.Decode

/-!
# Tables of entries

What an image says, apart from the way in which it is read: which byte strings hold a table of
entries, which entries belong to a run, which runs can be reached and which words are spelled along
a path. Runs may share entries and be reached in several ways; only a **cycle** of runs, or a run
that is out of order or leaves the table, makes an image bad.
-/

namespace WordStudy

namespace Image

/-! ## §1 Numbers in bytes -/

/-- The numbers that four bytes can hold. -/
def wordLimit : Nat := 0x100000000

/-- What is written as four bytes is read as the number. -/
theorem wordsOf_wordBytes_append {n : Nat} (hn : n < wordLimit) (rest : List UInt8) :
    wordsOf (wordBytes n ++ rest) = n :: wordsOf rest := by
  simp only [wordBytes, List.cons_append, List.nil_append, wordsOf, UInt8.toNat_ofNat']
  congr 1
  unfold wordLimit at hn
  omega

/-- **Numbers that are written one after the other** are read again. -/
theorem wordsOf_flatMap {table : List Nat} (h : ∀ n ∈ table, n < wordLimit) :
    wordsOf (table.flatMap wordBytes) = table := by
  induction table with
  | nil => rfl
  | cons n table ih =>
    rw [List.flatMap_cons, wordsOf_wordBytes_append (h n (by simp)),
      ih fun m hm => h m (by simp [hm])]

@[simp] theorem length_wordBytes (n : Nat) : (wordBytes n).length = 4 := rfl

@[simp] theorem length_flatMap_wordBytes (table : List Nat) :
    (table.flatMap wordBytes).length = 4 * table.length := by
  induction table with
  | nil => rfl
  | cons n table ih =>
    rw [List.flatMap_cons, List.length_append, length_wordBytes, ih, List.length_cons]
    omega

/-- Four bytes are those of a number. -/
theorem exists_wordBytes {bytes : List UInt8} (h : 4 ≤ bytes.length) :
    ∃ n < wordLimit, bytes = wordBytes n ++ bytes.drop 4 := by
  match bytes, h with
  | a :: b :: c :: d :: rest, _ =>
    have ha := a.toNat_lt
    have hb := b.toNat_lt
    have hc := c.toNat_lt
    have hd := d.toNat_lt
    refine ⟨a.toNat + b.toNat * 0x100 + c.toNat * 0x10000 + d.toNat * 0x1000000, ?_, ?_⟩
    · unfold wordLimit
      omega
    · simp only [wordBytes, List.drop_succ_cons, List.drop_zero, List.cons_append, List.nil_append,
        List.cons.injEq, and_true, ← UInt8.toNat_inj, UInt8.toNat_ofNat']
      omega

/-- **Bytes by fours** are those of a list of numbers. -/
theorem exists_table {count : Nat} {bytes : List UInt8} (h : bytes.length = 4 * count) :
    ∃ table : List Nat, table.length = count ∧ (∀ n ∈ table, n < wordLimit) ∧
      bytes = table.flatMap wordBytes := by
  induction count generalizing bytes with
  | zero => exact ⟨[], rfl, by simp, List.length_eq_zero_iff.mp (by omega)⟩
  -- The first four bytes are one number, and the rest is fewer bytes by fours.
  | succ count ih =>
    have hfour : 4 ≤ bytes.length := by omega
    have hdrop : (bytes.drop 4).length = 4 * count := by
      rw [List.length_drop]
      omega
    obtain ⟨n, hn, hfirst⟩ := exists_wordBytes hfour
    obtain ⟨table, hlength, hsmall, hrest⟩ := ih hdrop
    refine ⟨n :: table, by simp [hlength], by simpa [hn] using hsmall, ?_⟩
    rw [List.flatMap_cons, ← hrest]
    exact hfirst

/-! ## §2 Images -/

/-- **The byte string is the image of a table**: the magic bytes, the number of entries, of which
there are some, and the entries. -/
structure IsImage (bytes : List UInt8) (table : Array Nat) : Prop where
  bytes_eq : bytes = magic ++ wordBytes table.size ++ table.toList.flatMap wordBytes
  size_pos : 0 < table.size
  size_lt : table.size < wordLimit
  entries_lt : ∀ entry ∈ table.toList, entry < wordLimit

/-- **The reader takes just the images**, and takes from each its table. -/
theorem entriesOf_eq_ok_iff {bytes : List UInt8} {table : Array Nat} :
    entriesOf bytes = .ok table ↔ IsImage bytes table := by
  constructor
  -- What is read has passed both tests, of the header and of the size.
  · intro h
    unfold entriesOf at h
    split at h
    · cases h
    next hheader =>
    simp only [Bool.or_eq_true, decide_eq_true_eq, bne_iff_ne, not_or, Nat.not_lt,
      Decidable.not_not] at hheader
    obtain ⟨hlength, hmagic⟩ := hheader
    have hfour : 4 ≤ (bytes.drop 4).length := by
      rw [List.length_drop]
      omega
    obtain ⟨count, hcount, hdrop⟩ := exists_wordBytes hfour
    have hword : wordAt? bytes 1 = some count := by
      rw [wordAt?, hdrop, wordsOf_wordBytes_append hcount]
      rfl
    simp only [hword, Option.getD_some] at h
    split at h
    · cases h
    next hsize =>
    simp only [ne_eq, Bool.or_eq_true, decide_eq_true_eq, not_or, Decidable.not_not] at hsize
    obtain ⟨entries, hentries, hsmall, hbody⟩ := exists_table hsize.2
    rw [hbody, wordsOf_flatMap hsmall] at h
    cases h
    -- The parts of the byte string, put together again.
    have hbytes : bytes = magic ++ (wordBytes count ++ bytes.drop 8) := by
      rw [← hmagic, show bytes.drop 8 = (bytes.drop 4).drop 4 by rw [List.drop_drop], ← hdrop,
        List.take_append_drop]
    refine ⟨?_, ?_, ?_, ?_⟩
    · rw [List.size_toArray, hentries, ← hbody, List.append_assoc]
      exact hbytes
    · rw [List.size_toArray]
      omega
    · rw [List.size_toArray, hentries]
      exact hcount
    · exact hsmall
  · rintro ⟨rfl, hpos, hsize, hsmall⟩
    -- The other way, the tests see what was written.
    have hword : wordAt? (magic ++ wordBytes table.size ++ table.toList.flatMap wordBytes) 1 =
        some table.size := by
      show (wordsOf (wordBytes table.size ++ table.toList.flatMap wordBytes))[0]? = _
      rw [wordsOf_wordBytes_append hsize]
      rfl
    have hbody : (magic ++ wordBytes table.size ++ table.toList.flatMap wordBytes).drop 8 =
        table.toList.flatMap wordBytes := rfl
    unfold entriesOf
    rw [if_neg, hword, hbody]
    · simp only [Option.getD_some, length_flatMap_wordBytes, Array.length_toList]
      rw [if_neg (by simpa using Array.size_pos_iff.mp hpos), wordsOf_flatMap hsmall]
    · simp [magic, wordBytes]

/-- A byte string is the image of one table. -/
theorem IsImage.unique {bytes : List UInt8} {table table' : Array Nat} (h : IsImage bytes table)
    (h' : IsImage bytes table') : table = table' := by
  have hread := entriesOf_eq_ok_iff.mpr h
  rw [entriesOf_eq_ok_iff.mpr h'] at hread
  exact (Except.ok.inj hread).symm

/-! ## §3 Runs -/

/-- The run of the root. -/
def rootRun (table : Array Nat) : Nat := runOf (table[0]?.getD 0)

/-- **An entry of a run** that begins at a place: the one there, or one behind an entry that is not
marked as the last. -/
inductive InRun (table : Array Nat) : Nat → Nat → Prop
  | first {place entry : Nat} (hentry : table[place]? = some entry) : InRun table place entry
  | behind {place entry other : Nat} (hentry : table[place]? = some entry)
    (hlast : isLast entry = false) (hother : InRun table (place + 1) other) :
    InRun table place other

/-- The run at a place **ends in the table**, and its letters are strictly ascending capitals up to
the entry that is marked as the last. -/
inductive IsProper (table : Array Nat) : Nat → Prop
  | last {place entry : Nat} (hentry : table[place]? = some entry)
    (hupper : isUpper (letterOf entry) = true) (hlast : isLast entry = true) : IsProper table place
  | more {place entry next : Nat} (hentry : table[place]? = some entry)
    (hupper : isUpper (letterOf entry) = true) (hlast : isLast entry = false)
    (hnext : table[place + 1]? = some next) (hletter : letterOf entry < letterOf next)
    (hrest : IsProper table (place + 1)) : IsProper table place

/-- An edge of the node with a run; the node with run 0 has none. -/
def IsEdge (table : Array Nat) (run entry : Nat) : Prop := run ≠ 0 ∧ InRun table run entry

/-- One of the edges of a run leads to the other run. -/
def Leads (table : Array Nat) (run target : Nat) : Prop :=
  ∃ entry, IsEdge table run entry ∧ runOf entry = target

/-- The run can be reached from the other. -/
abbrev Reaches (table : Array Nat) : Nat → Nat → Prop := Relation.ReflTransGen (Leads table)

/-- **The runs that can be reached from the root are proper and form no cycle.** -/
structure IsWellFormed (table : Array Nat) (root : Nat) : Prop where
  proper : ∀ run, Reaches table root run → run ≠ 0 → IsProper table run
  acyclic : ∀ run, Reaches table root run → ¬ Relation.TransGen (Leads table) run run

/-- A path that begins at a run, as the entries along it. -/
inductive IsPath (table : Array Nat) : Nat → List Nat → Prop
  | nil {run : Nat} : IsPath table run []
  | cons {run entry : Nat} {path : List Nat} (hedge : IsEdge table run entry)
    (hpath : IsPath table (runOf entry) path) : IsPath table run (entry :: path)

/-- **The word is spelled** by the letters along a path whose last edge has the mark of a word. -/
def Spells (table : Array Nat) (run : Nat) (w : Word) : Prop :=
  ∃ path, IsPath table run path ∧ path.map letterOf = w ∧ path.getLast?.any isTerminal = true

/-! ### Small laws of runs -/

section

variable {table : Array Nat}

/-- The run of the last entry has this entry only. -/
theorem inRun_of_last {place entry other : Nat} (hentry : table[place]? = some entry)
    (hlast : isLast entry = true) : InRun table place other ↔ other = entry := by
  constructor
  · intro h
    cases h with
    | first hother => simpa [hentry] using hother.symm
    | behind hfirst hmore _ => simp_all
  · rintro rfl
    exact .first hentry

/-- Any other run has its first entry and those behind it. -/
theorem inRun_of_more {place entry other : Nat} (hentry : table[place]? = some entry)
    (hlast : isLast entry = false) :
    InRun table place other ↔ other = entry ∨ InRun table (place + 1) other := by
  constructor
  · intro h
    cases h with
    | first hother => exact .inl (by simpa [hentry] using hother.symm)
    | behind _ _ hrest => exact .inr hrest
  · rintro (rfl | hrest)
    · exact .first hentry
    · exact .behind hentry hlast hrest

theorem not_isEdge_zero (entry : Nat) : ¬ IsEdge table 0 entry := fun h => h.1 rfl

/-- What a run of the graph reaches is in order as well. -/
theorem IsWellFormed.of_reaches {root run : Nat} (h : IsWellFormed table root)
    (hrun : Reaches table root run) : IsWellFormed table run :=
  ⟨fun r hr => h.proper r (hrun.trans hr), fun r hr => h.acyclic r (hrun.trans hr)⟩

/-- A word is spelled along one edge, or along an edge and from the run behind it. -/
theorem spells_iff {run : Nat} {w : Word} :
    Spells table run w ↔ ∃ entry, IsEdge table run entry ∧
      ((isTerminal entry = true ∧ w = [letterOf entry]) ∨
        ∃ v, Spells table (runOf entry) v ∧ w = letterOf entry :: v) := by
  constructor
  · rintro ⟨path, hpath, rfl, hterminal⟩
    cases hpath with
    | nil => simp at hterminal
    | @cons _ entry path hedge hpath =>
      refine ⟨entry, hedge, ?_⟩
      cases path with
      | nil => exact .inl ⟨by simpa using hterminal, rfl⟩
      | cons next path =>
        exact .inr ⟨_, ⟨next :: path, hpath, rfl, by simpa using hterminal⟩, rfl⟩
  · rintro ⟨entry, hedge, ⟨hterminal, rfl⟩ | ⟨v, ⟨path, hpath, rfl, hlast⟩, rfl⟩⟩
    · exact ⟨[entry], .cons hedge .nil, rfl, by simpa using hterminal⟩
    · refine ⟨entry :: path, .cons hedge hpath, rfl, ?_⟩
      cases path with
      | nil => simp at hlast
      | cons next path => simpa using hlast

end

end Image

end WordStudy
