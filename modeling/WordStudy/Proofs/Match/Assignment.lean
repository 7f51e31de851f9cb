import Mathlib.Data.Finset.Option
import Mathlib.Data.Fintype.Basic
import WordStudy.Proofs.Match.Lengths

/-!
# Racks and assignments

What a rack spells, said without an order of tiles: the letters of a word are **assigned to
different tiles** that take them, and what is left goes to `*` if there is one. That a rack takes a
letter tile before a class, a class before a blank and `*` last loses nothing, for a tile that takes
fewer letters can be exchanged for any tile that takes them too.
-/

namespace WordStudy

/-- An assignment of the letters of a word to **different tiles**, each of which takes its letter. A
letter without a tile is left to `*`, which has to be there. -/
structure TileAssignment (tiles : List Token) (unlimited : Bool) (w : Word) where
  /-- The tile of each letter, `none` for a letter that is left to `*`. -/
  tileOf : Fin w.length → Option (Fin tiles.length)
  different : ∀ i j t, tileOf i = some t → tileOf j = some t → i = j
  takes : ∀ i t, tileOf i = some t → tiles[t].takes w[i] = true
  leaves : ∀ i, tileOf i = none → unlimited = true

namespace RackMode

/-- What a mode asks of an assignment: every tile is used, nothing, or a length of the word. -/
def IsMetBy (mode : RackMode) {tiles : List Token} {unlimited : Bool} {w : Word}
    (a : TileAssignment tiles unlimited w) : Prop :=
  match mode with
  | anagram => ∀ t, ∃ i, a.tileOf i = some t
  | subanagram => True
  | consist min max => min ≤ w.length ∧ w.length ≤ max

/-- What a mode asks of the tiles that are left when a word of `length` letters is spelled. -/
def Allows (mode : RackMode) (length : Nat) (rest : Multiset Token) : Prop :=
  match mode with
  | anagram => rest = 0
  | subanagram => True
  | consist min max => min ≤ length ∧ length ≤ max

end RackMode

/-! ## §1 Spending tiles -/

/-- The letters of a word are spent one by one, **in any way**, on tiles that take them; the rest of
the tiles is left. -/
inductive Spends (unlimited : Bool) : Multiset Token → Word → Multiset Token → Prop
  | nil (tiles : Multiset Token) : Spends unlimited tiles [] tiles
  | tile {t : Token} {tiles rest : Multiset Token} {b : UInt8} {w : Word}
      (htakes : t.takes b = true) (hmore : Spends unlimited tiles w rest) :
      Spends unlimited (t ::ₘ tiles) (b :: w) rest
  | star {tiles rest : Multiset Token} {b : UInt8} {w : Word} (hopen : unlimited = true)
      (hmore : Spends unlimited tiles w rest) : Spends unlimited tiles (b :: w) rest

namespace Spends

variable {unlimited : Bool} {tiles rest : Multiset Token} {t t₀ : Token} {b : UInt8} {w : Word}

theorem eq_of_nil (h : Spends unlimited tiles [] rest) : rest = tiles := by
  generalize hw : ([] : Word) = w at h
  cases h with
  | nil => rfl
  | tile => cases hw
  | star => cases hw

/-- A first letter is spent on a tile that takes it, or left to `*`. -/
theorem first (h : Spends unlimited tiles (b :: w) rest) :
    (∃ t more, tiles = t ::ₘ more ∧ t.takes b = true ∧ Spends unlimited more w rest) ∨
      (unlimited = true ∧ Spends unlimited tiles w rest) := by
  generalize hw : b :: w = v at h
  cases h with
  | nil => cases hw
  | tile htakes hmore =>
    cases hw
    exact .inl ⟨_, _, rfl, htakes, hmore⟩
  | star hopen hmore =>
    cases hw
    exact .inr ⟨hopen, hmore⟩

/-- **Tiles can be exchanged** for tiles that take whatever they take. -/
theorem exchange (hwider : ∀ c, t.takes c = true → t₀.takes c = true)
    (h : Spends unlimited (t ::ₘ tiles) w rest) :
    ∃ rest', Spends unlimited (t₀ ::ₘ tiles) w rest' ∧ rest'.card = rest.card := by
  induction w generalizing tiles with
  | nil =>
    rw [h.eq_of_nil]
    exact ⟨_, .nil _, by simp⟩
  | cons b w ih =>
    obtain ⟨s, more, hall, htakes, hmore⟩ | ⟨hopen, hmore⟩ := h.first
    · rcases Multiset.cons_eq_cons.mp hall with ⟨rfl, rfl⟩ | ⟨-, others, rfl, rfl⟩
      · -- The exchanged tile itself was spent.
        exact ⟨rest, .tile (hwider b htakes) hmore, rfl⟩
      -- Another tile was spent, and the exchanged one is still there for the rest of the word.
      · obtain ⟨rest', hspends, hcard⟩ := ih hmore
        refine ⟨rest', ?_, hcard⟩
        rw [Multiset.cons_swap]
        exact .tile htakes hspends
    · obtain ⟨rest', hspends, hcard⟩ := ih hmore
      exact ⟨rest', .star hopen hspends, hcard⟩

/-- **Where there is a `*`, a tile can be done without**, and no more tiles are left. -/
theorem drop (hopen : unlimited = true) (h : Spends unlimited (t ::ₘ tiles) w rest) :
    ∃ rest', Spends unlimited tiles w rest' ∧ rest'.card ≤ rest.card := by
  induction w generalizing tiles with
  | nil =>
    rw [h.eq_of_nil]
    exact ⟨_, .nil _, by simp⟩
  | cons b w ih =>
    obtain ⟨s, more, hall, htakes, hmore⟩ | ⟨-, hmore⟩ := h.first
    · rcases Multiset.cons_eq_cons.mp hall with ⟨rfl, rfl⟩ | ⟨-, others, rfl, rfl⟩
      -- The star takes the byte of the tile that is dropped.
      · exact ⟨rest, .star hopen hmore, le_rfl⟩
      · obtain ⟨rest', hspends, hcard⟩ := ih hmore
        exact ⟨rest', .tile htakes hspends, hcard⟩
    · obtain ⟨rest', hspends, hcard⟩ := ih hmore
      exact ⟨rest', .star hopen hspends, hcard⟩

/-- A tile is spent **instead of another one** that takes whatever it takes. -/
theorem instead {more : Multiset Token} (hwider : ∀ c, t.takes c = true → t₀.takes c = true)
    (hall : t ::ₘ tiles = t₀ ::ₘ more) (h : Spends unlimited more w rest) :
    ∃ rest', Spends unlimited tiles w rest' ∧ rest'.card ≤ rest.card := by
  rcases Multiset.cons_eq_cons.mp hall with ⟨rfl, rfl⟩ | ⟨-, others, rfl, rfl⟩
  · exact ⟨rest, h, le_rfl⟩
  · -- From now on, the other tile takes its place.
    obtain ⟨rest', hspends, hcard⟩ := h.exchange hwider
    exact ⟨rest', hspends, hcard.le⟩

/-- **The tile that takes the fewest letters may be spent first**, and no more tiles are left. -/
theorem prefer (hnarrow : ∀ t₀ ∈ t ::ₘ tiles, t₀.takes b = true →
      ∀ c, t.takes c = true → t₀.takes c = true)
    (h : Spends unlimited (t ::ₘ tiles) (b :: w) rest) :
    ∃ rest', Spends unlimited tiles w rest' ∧ rest'.card ≤ rest.card := by
  obtain ⟨t₀, more, hall, htakes, hmore⟩ | ⟨hopen, hmore⟩ := h.first
  · exact hmore.instead (hnarrow t₀ (hall ▸ Multiset.mem_cons_self ..) htakes) hall
  · exact hmore.drop hopen

/-- A first letter that no tile takes is left to `*`. -/
theorem of_none_takes (hnone : ∀ t ∈ tiles, t.takes b = false)
    (h : Spends unlimited tiles (b :: w) rest) : unlimited = true ∧ Spends unlimited tiles w rest := by
  refine h.first.resolve_left ?_
  rintro ⟨t, more, rfl, htakes, -⟩
  rw [hnone t (Multiset.mem_cons_self ..)] at htakes
  cases htakes

end Spends

/-! ## §2 Assignments -/

section Assignments

variable {tiles : List Token} {unlimited : Bool} {w : Word}

/-- The tiles with some numbers. -/
def tilesAt (tiles : List Token) (numbers : Finset (Fin tiles.length)) : Multiset Token :=
  numbers.val.map fun t => tiles[t]

theorem tilesAt_univ (tiles : List Token) : tilesAt tiles Finset.univ = (tiles : Multiset Token) := by
  have hval : (Finset.univ : Finset (Fin tiles.length)).val = ↑(List.finRange tiles.length) := rfl
  rw [tilesAt, hval, Multiset.map_coe]
  exact congrArg _ tiles.map_getElem_finRange

theorem tilesAt_eq_cons_iff {numbers : Finset (Fin tiles.length)} {t : Token}
    {rest : Multiset Token} :
    tilesAt tiles numbers = t ::ₘ rest ↔
      ∃ n ∈ numbers, tiles[n] = t ∧ tilesAt tiles (numbers.erase n) = rest := by
  rw [tilesAt, ← Multiset.map_eq_cons]
  simp only [tilesAt, Finset.erase_val, Finset.mem_val]

/-- What is left of some tiles when one is used, and then others. -/
theorem sdiff_union_eq_erase_sdiff {n : Nat} (numbers others : Finset (Fin n)) (t : Fin n) :
    numbers \ ({t} ∪ others) = numbers.erase t \ others := by
  rw [Finset.erase_eq, sdiff_sdiff_left, Finset.sup_eq_union]

namespace TileAssignment

/-- The numbers of the tiles that an assignment uses. -/
def used (a : TileAssignment tiles unlimited w) : Finset (Fin tiles.length) :=
  Finset.univ.filter fun t => ∃ i, a.tileOf i = some t

theorem mem_used {a : TileAssignment tiles unlimited w} {t : Fin tiles.length} :
    t ∈ a.used ↔ ∃ i, a.tileOf i = some t := by simp [used]

/-- The assignment of the letters behind the first one. -/
def tail {b : UInt8} (a : TileAssignment tiles unlimited (b :: w)) :
    TileAssignment tiles unlimited w where
  tileOf i := a.tileOf i.succ
  different _ _ t hi hj := Fin.succ_injective _ (a.different _ _ t hi hj)
  takes _ t hi := a.takes _ t hi
  leaves _ hi := a.leaves _ hi

/-- An assignment to some tiles, with a first letter that has a tile which is not used, or is left
to `*`. -/
def cons (a : TileAssignment tiles unlimited w) (b : UInt8) (first : Option (Fin tiles.length))
    (hnew : ∀ t ∈ first, t ∉ a.used) (htakes : ∀ t ∈ first, tiles[t].takes b = true)
    (hleaves : first = none → unlimited = true) : TileAssignment tiles unlimited (b :: w) where
  tileOf := Fin.cons first a.tileOf
  different i j t := by
    cases i using Fin.cases with
    | zero =>
      cases j using Fin.cases with
      | zero => exact fun _ _ => rfl
      | succ j => exact fun hi hj => absurd (mem_used.mpr ⟨j, hj⟩) (hnew t hi)
    | succ i =>
      cases j using Fin.cases with
      | zero => exact fun hi hj => absurd (mem_used.mpr ⟨i, hi⟩) (hnew t hj)
      | succ j => exact fun hi hj => congrArg Fin.succ (a.different i j t hi hj)
  takes i t := by
    cases i using Fin.cases with
    | zero => exact htakes t
    | succ i => exact a.takes i t
  leaves i := by
    cases i using Fin.cases with
    | zero => exact hleaves
    | succ i => exact a.leaves i

theorem used_eq_tail {b : UInt8} (a : TileAssignment tiles unlimited (b :: w)) :
    a.used = (a.tileOf 0).toFinset ∪ a.tail.used := by
  ext t
  rw [Finset.mem_union, mem_used, mem_used, Option.mem_toFinset]
  exact Fin.exists_fin_succ (P := fun i => a.tileOf i = some t)

/-- **Along an assignment the letters are spent**, and the tiles that are not used are left. -/
theorem spends (a : TileAssignment tiles unlimited w) {numbers : Finset (Fin tiles.length)}
    (h : a.used ⊆ numbers) :
    Spends unlimited (tilesAt tiles numbers) w (tilesAt tiles (numbers \ a.used)) := by
  induction w generalizing numbers with
  | nil =>
    have hnone : a.used = ∅ := by
      ext t
      simp [mem_used]
    rw [hnone, Finset.sdiff_empty]
    exact .nil _
  | cons b w ih =>
    rw [a.used_eq_tail] at h ⊢
    cases hfirst : a.tileOf 0 with
    | none =>
      -- The star takes the first letter, so no tile is spent on it.
      rw [hfirst] at h
      simp only [Option.toFinset_none, Finset.empty_union] at h ⊢
      exact .star (a.leaves 0 hfirst) (ih a.tail h)
    | some t =>
      rw [hfirst, Option.toFinset_some] at h
      -- The first letter's tile is not spent again on a later letter.
      have hunused : t ∉ a.tail.used := by
        rw [mem_used]
        rintro ⟨i, hi⟩
        exact Fin.succ_ne_zero i (a.different _ _ t hi hfirst)
      have hspent : tilesAt tiles numbers = tiles[t] ::ₘ tilesAt tiles (numbers.erase t) :=
        tilesAt_eq_cons_iff.mpr ⟨t, h (by simp), rfl, rfl⟩
      have hsub : a.tail.used ⊆ numbers.erase t := by
        intro s hs
        refine Finset.mem_erase.mpr ⟨?_, h (Finset.mem_union_right _ hs)⟩
        rintro rfl
        exact hunused hs
      rw [hspent, Option.toFinset_some, sdiff_union_eq_erase_sdiff]
      exact .tile (a.takes 0 t hfirst) (ih a.tail hsub)

/-- The empty word needs no tile. -/
theorem exists_empty (tiles : List Token) (unlimited : Bool) :
    ∃ a : TileAssignment tiles unlimited [], a.used = ∅ := by
  refine ⟨⟨fun i => i.elim0, fun i => i.elim0, fun i => i.elim0, fun i => i.elim0⟩, ?_⟩
  ext t
  simp [mem_used]

/-- **One letter more is assigned** to a tile that is left. -/
theorem exists_cons_tile {b : UInt8} {numbers : Finset (Fin tiles.length)} {t : Fin tiles.length}
    (a : TileAssignment tiles unlimited w) (ht : t ∈ numbers) (hsub : a.used ⊆ numbers.erase t)
    (htakes : tiles[t].takes b = true) :
    ∃ longer : TileAssignment tiles unlimited (b :: w), longer.tileOf = Fin.cons (some t) a.tileOf ∧
      longer.used ⊆ numbers ∧ numbers \ longer.used = numbers.erase t \ a.used := by
  have hunused : t ∉ a.used := fun ht' => Finset.notMem_erase t numbers (hsub ht')
  let longer := a.cons b (some t) (by simpa using hunused) (by simpa using htakes) (by simp)
  have hused : longer.used = {t} ∪ a.used := longer.used_eq_tail
  refine ⟨longer, rfl, ?_, ?_⟩
  · rw [hused]
    exact Finset.union_subset (by simpa using ht) (hsub.trans (Finset.erase_subset _ _))
  · rw [hused, sdiff_union_eq_erase_sdiff]

/-- One letter more is left to `*`. -/
theorem exists_cons_star (a : TileAssignment tiles unlimited w) (b : UInt8)
    (hopen : unlimited = true) :
    ∃ longer : TileAssignment tiles unlimited (b :: w), longer.tileOf = Fin.cons none a.tileOf ∧
      longer.used = a.used := by
  let longer := a.cons b none (by simp) (by simp) (fun _ => hopen)
  refine ⟨longer, rfl, ?_⟩
  rw [longer.used_eq_tail]
  exact Finset.empty_union _

/-- **Letters that are spent are assigned** to the tiles that are not left. -/
theorem exists_of_spends {numbers : Finset (Fin tiles.length)} {rest : Multiset Token}
    (h : Spends unlimited (tilesAt tiles numbers) w rest) :
    ∃ a : TileAssignment tiles unlimited w,
      a.used ⊆ numbers ∧ rest = tilesAt tiles (numbers \ a.used) := by
  induction w generalizing numbers with
  | nil =>
    obtain rfl := h.eq_of_nil
    obtain ⟨a, hnone⟩ := exists_empty tiles unlimited
    exact ⟨a, by simp [hnone], by simp [hnone]⟩
  | cons b w ih =>
    obtain ⟨_, _, hall, htakes, hmore⟩ | ⟨hopen, hmore⟩ := h.first
    -- A number is chosen for the tile spent first, and the rest is assigned among the others.
    · obtain ⟨t, ht, rfl, rfl⟩ := tilesAt_eq_cons_iff.mp hall
      obtain ⟨a, hsub, rfl⟩ := ih hmore
      obtain ⟨longer, -, hsub', hleft⟩ := a.exists_cons_tile ht hsub htakes
      exact ⟨longer, hsub', by rw [hleft]⟩
    · obtain ⟨a, hsub, rfl⟩ := ih hmore
      obtain ⟨longer, -, hused⟩ := a.exists_cons_star b hopen
      exact ⟨longer, hused ▸ hsub, by rw [hused]⟩

/-- **A mode is met** if it allows the tiles that are not used to be left. -/
theorem allows_iff_isMetBy (mode : RackMode) (a : TileAssignment tiles unlimited w) :
    mode.Allows w.length (tilesAt tiles (Finset.univ \ a.used)) ↔ mode.IsMetBy a := by
  cases mode with
  | anagram =>
    rw [RackMode.Allows, tilesAt, Multiset.map_eq_zero, Finset.val_eq_zero,
      Finset.sdiff_eq_empty_iff_subset]
    simp only [RackMode.IsMetBy, Finset.subset_iff, Finset.mem_univ, true_implies, mem_used]
  | subanagram => exact Iff.rfl
  | consist min max => exact Iff.rfl

end TileAssignment

end Assignments

/-! ## §3 The order of tiles -/

/-- The tiles as tokens. -/
def Tiles.tokens (tiles : Tiles) : Multiset Token :=
  (tiles.letters.map Token.letter : Multiset Token) + Multiset.replicate tiles.blanks .any +
    (tiles.classes.map Token.oneOf : Multiset Token)

namespace Tiles

variable {tiles : Tiles} {b : UInt8}

theorem letter_mem_tokens {l : UInt8} : .letter l ∈ tiles.tokens ↔ l ∈ tiles.letters := by
  simp [tokens, Multiset.mem_replicate]

theorem any_mem_tokens : .any ∈ tiles.tokens ↔ 0 < tiles.blanks := by
  simp [tokens, Multiset.mem_replicate, Nat.pos_iff_ne_zero]

theorem oneOf_mem_tokens {set : LetterSet} : .oneOf set ∈ tiles.tokens ↔ set ∈ tiles.classes := by
  simp [tokens, Multiset.mem_replicate]

theorem star_notMem_tokens : .star ∉ tiles.tokens := by
  simp [tokens, Multiset.mem_replicate]

theorem tokens_eraseLetter (h : b ∈ tiles.letters) :
    tiles.tokens = .letter b ::ₘ { tiles with letters := tiles.letters.erase b }.tokens := by
  have hperm := ((List.perm_cons_erase h).map Token.letter)
  simp only [tokens, Multiset.coe_eq_coe.mpr hperm, List.map_cons, ← Multiset.cons_coe,
    Multiset.cons_add]

theorem tokens_eraseClass {set : LetterSet} (h : set ∈ tiles.classes) :
    tiles.tokens = .oneOf set ::ₘ { tiles with classes := tiles.classes.erase set }.tokens := by
  have hperm := ((List.perm_cons_erase h).map Token.oneOf)
  simp only [tokens, Multiset.coe_eq_coe.mpr hperm, List.map_cons, ← Multiset.cons_coe,
    Multiset.add_cons]

theorem tokens_spendBlank (h : 0 < tiles.blanks) :
    tiles.tokens = .any ::ₘ { tiles with blanks := tiles.blanks - 1 }.tokens := by
  obtain ⟨n, hn⟩ := Nat.exists_eq_add_of_lt h
  simp only [tokens, hn, Nat.zero_add, Nat.add_sub_cancel, Multiset.replicate_succ,
    Multiset.add_cons, Multiset.cons_add]

theorem isEmpty_iff_tokens : tiles.isEmpty = true ↔ tiles.tokens.card = 0 := by
  simp [isEmpty, tokens, and_assoc]

end Tiles

namespace Rack

variable {unlimited : Bool} {tiles next : Tiles} {b : UInt8} {w : Word}

theorem mem_classesFor {set : LetterSet} :
    set ∈ tiles.classes.eraseDups.filter (·.contains b) ↔
      set ∈ tiles.classes ∧ set.contains b = true := by
  rw [List.mem_filter, List.mem_eraseDups]

/-- **Every way to go on spends a tile** that takes the letter, or leaves it to `*`. It is a letter
tile if there is one. -/
theorem tokens_of_mem_take (h : next ∈ take unlimited tiles b) :
    (∃ t : Token, t.takes b = true ∧ t.isLetter = tiles.letters.contains b ∧
      tiles.tokens = t ::ₘ next.tokens) ∨
      (unlimited = true ∧ tiles.letters.contains b = false ∧ next = tiles) := by
  unfold take at h
  -- A letter's own tile is tried first, then the blanks and classes, then the star.
  split at h
  · next hletter =>
    obtain rfl := List.mem_singleton.mp h
    exact .inl ⟨.letter b, by simp [Token.takes], hletter.symm,
      Tiles.tokens_eraseLetter (List.contains_iff_mem.mp hletter)⟩
  · next hletter =>
    have hno : tiles.letters.contains b = false := Bool.eq_false_iff.mpr hletter
    split at h
    · split at h
      · next hblank =>
        obtain rfl := List.mem_singleton.mp h
        exact .inl ⟨.any, rfl, hno.symm, Tiles.tokens_spendBlank hblank⟩
      · split at h
        · next hopen =>
          exact .inr ⟨hopen, hno, List.mem_singleton.mp h⟩
        · cases h
    · obtain ⟨set, hset, rfl⟩ := List.mem_map.mp h
      obtain ⟨hmem, htakes⟩ := mem_classesFor.mp hset
      exact .inl ⟨.oneOf set, htakes, hno.symm, Tiles.tokens_eraseClass hmem⟩

/-- **Whatever can be spelled can be spelled greedily**, and no more tiles are left. -/
theorem exists_mem_take {rest : Multiset Token}
    (h : Spends unlimited tiles.tokens (b :: w) rest) :
    ∃ next ∈ take unlimited tiles b, ∃ rest', Spends unlimited next.tokens w rest' ∧
      rest'.card ≤ rest.card := by
  unfold take
  split
  · next hletter =>
    -- Any tile that takes the letter takes all that its letter tile takes.
    rw [Tiles.tokens_eraseLetter (List.contains_iff_mem.mp hletter)] at h
    refine ⟨_, List.mem_singleton_self _, h.prefer ?_⟩
    intro t₀ _ htakes c hc
    rwa [← beq_iff_eq.mp hc]
  · next hletter =>
    have hno : .letter b ∉ tiles.tokens := by
      rw [Tiles.letter_mem_tokens]
      simpa using hletter
    -- A tile that takes the letter is no letter tile, and is a class or a blank.
    have hkind : ∀ t ∈ tiles.tokens, t.takes b = true →
        t = .any ∨ ∃ set ∈ tiles.classes, set.contains b = true ∧ t = .oneOf set := by
      intro t ht htakes
      cases t with
      | letter l => exact absurd (beq_iff_eq.mp htakes ▸ ht) hno
      | any => exact .inl rfl
      | star => exact absurd ht Tiles.star_notMem_tokens
      | oneOf set => exact .inr ⟨set, Tiles.oneOf_mem_tokens.mp ht, htakes, rfl⟩
    split
    · next hclasses =>
      have hblankOnly : ∀ t ∈ tiles.tokens, t.takes b = true → t = .any := by
        intro t ht htakes
        refine (hkind t ht htakes).resolve_right ?_
        rintro ⟨set, hset, hcontains, -⟩
        have hmem := mem_classesFor.mpr ⟨hset, hcontains⟩
        rw [hclasses] at hmem
        cases hmem
      split
      · next hblank =>
        have hspent := Tiles.tokens_spendBlank hblank
        rw [hspent] at h hblankOnly
        refine ⟨_, List.mem_singleton_self _, h.prefer ?_⟩
        intro t₀ ht₀ htakes c _
        rw [hblankOnly t₀ ht₀ htakes]
        rfl
      · next hblank =>
        have hnone : ∀ t ∈ tiles.tokens, t.takes b = false := by
          intro t ht
          rw [← Bool.not_eq_true]
          intro htakes
          exact hblank (Tiles.any_mem_tokens.mp (hblankOnly t ht htakes ▸ ht))
        obtain ⟨hopen, hmore⟩ := h.of_none_takes hnone
        rw [if_pos hopen]
        exact ⟨tiles, List.mem_singleton_self _, rest, hmore, le_rfl⟩
    · next hclasses =>
      -- If a class was spent, it is one of the ways; for a blank or `*`, any class is.
      obtain ⟨set₀, hset₀⟩ := List.exists_mem_of_ne_nil _ hclasses
      obtain ⟨t₀, more, hall, htakes, hmore⟩ | ⟨hopen, hmore⟩ := h.first
      · obtain ⟨set, hset, hwider⟩ : ∃ set ∈ tiles.classes.eraseDups.filter (·.contains b),
            ∀ c, (Token.oneOf set).takes c = true → t₀.takes c = true := by
          rcases hkind t₀ (hall ▸ Multiset.mem_cons_self ..) htakes with rfl | ⟨set, hset, hb, rfl⟩
          · exact ⟨set₀, hset₀, fun _ _ => rfl⟩
          · exact ⟨set, mem_classesFor.mpr ⟨hset, hb⟩, fun _ hc => hc⟩
        rw [Tiles.tokens_eraseClass (mem_classesFor.mp hset).1] at hall
        exact ⟨_, List.mem_map_of_mem hset, hmore.instead hwider hall⟩
      · rw [Tiles.tokens_eraseClass (mem_classesFor.mp hset₀).1] at hmore
        exact ⟨_, List.mem_map_of_mem hset₀, hmore.drop hopen⟩

/-! ## §4 All ways at once -/

variable {r : Rack} {ways last : List Tiles}

/-- A way to go on is among the ways after one more letter. -/
theorem exists_step (htiles : tiles ∈ ways) (hnext : next ∈ take r.unlimited tiles b) :
    ∃ ways', r.step ways b = some ways' ∧ next ∈ ways' := by
  have hmem : next ∈ (ways.flatMap fun tiles => take r.unlimited tiles b).eraseDups :=
    List.mem_eraseDups.mpr (List.mem_flatMap.mpr ⟨tiles, htiles, hnext⟩)
  unfold step
  split
  · next hnil =>
    rw [hnil] at hmem
    cases hmem
  · exact ⟨_, rfl, hmem⟩

/-- **Every way is one of spending the letters**. -/
theorem spends_of_foldlM (h : w.foldlM r.step ways = some last) (hlast : next ∈ last) :
    ∃ tiles ∈ ways, Spends r.unlimited tiles.tokens w next.tokens := by
  induction w generalizing ways with
  | nil =>
    cases h
    exact ⟨next, hlast, .nil _⟩
  | cons b w ih =>
    rw [List.foldlM_cons] at h
    obtain ⟨between, hstep, hrest⟩ := Option.bind_eq_some_iff.mp h
    obtain ⟨after, hafter, hspends⟩ := ih hrest
    -- The tiles left at the end go back, letter by letter, to some that it began with.
    obtain ⟨before, hbefore, htake⟩ := mem_step hstep hafter
    refine ⟨before, hbefore, ?_⟩
    obtain ⟨t, htakes, -, htokens⟩ | ⟨hopen, -, rfl⟩ := tokens_of_mem_take htake
    · rw [htokens]
      exact .tile htakes hspends
    · exact .star hopen hspends

/-- **Letters that can be spent are spelled** in a way that leaves no more tiles. -/
theorem exists_foldlM_of_spends {rest : Multiset Token} (htiles : tiles ∈ ways)
    (h : Spends r.unlimited tiles.tokens w rest) :
    ∃ last, w.foldlM r.step ways = some last ∧ ∃ next ∈ last, next.tokens.card ≤ rest.card := by
  induction w generalizing tiles ways rest with
  | nil => exact ⟨ways, rfl, tiles, htiles, by rw [h.eq_of_nil]⟩
  | cons b w ih =>
    obtain ⟨after, hafter, rest', hspends, hcard⟩ := exists_mem_take h
    obtain ⟨between, hstep, hmem⟩ := exists_step htiles hafter
    obtain ⟨last, hlast, next, hnext, hle⟩ := ih hmem hspends
    refine ⟨last, ?_, next, hnext, hle.trans hcard⟩
    rw [List.foldlM_cons, hstep]
    exact hlast

/-- Ways that are accepted leave **tiles that the mode allows** in one of them. -/
theorem exists_allows_of_accepts {mode : RackMode} {length : Nat}
    (h : accepts mode ways length = true) :
    ∃ next ∈ ways, mode.Allows length next.tokens := by
  unfold accepts at h
  split at h
  · cases h
  · next hsome =>
    obtain ⟨first, hfirst⟩ : ∃ next, next ∈ ways := by
      apply List.exists_mem_of_ne_nil
      simp only [Bool.or_eq_true, not_or, List.isEmpty_iff] at hsome
      exact hsome.2
    -- An anagram has a way with no tile left; otherwise any way that is left will do.
    cases mode with
    | anagram =>
      obtain ⟨next, hnext, hempty⟩ := List.any_eq_true.mp h
      exact ⟨next, hnext, Multiset.card_eq_zero.mp (Tiles.isEmpty_iff_tokens.mp hempty)⟩
    | subanagram => exact ⟨first, hfirst, trivial⟩
    | consist min max => exact ⟨first, hfirst, by simpa [RackMode.Allows] using h⟩

/-- **The rack spells the word** if its tiles can be spent so that the mode is content with what is
left. -/
theorem spells_iff_spends (r : Rack) (mode : RackMode) (w : Word) :
    r.spells mode w = true ↔
      w ≠ [] ∧ ∃ rest, Spends r.unlimited r.start.tokens w rest ∧ mode.Allows w.length rest := by
  constructor
  · intro h
    have hlength := length_pos_of_spells h
    refine ⟨List.ne_nil_of_length_pos hlength, ?_⟩
    obtain ⟨ways, hways, haccepts⟩ := exists_ways_of_spells h
    obtain ⟨next, hnext, hallows⟩ := exists_allows_of_accepts haccepts
    obtain ⟨tiles, htiles, hspends⟩ := spends_of_foldlM hways hnext
    rw [List.mem_singleton.mp htiles] at hspends
    exact ⟨_, hspends, hallows⟩
  · rintro ⟨hw, rest, hspends, hmode⟩
    -- The search keeps a way that leaves no more tiles than the spending does.
    obtain ⟨ways, hways, next, hnext, hcard⟩ :=
      exists_foldlM_of_spends (List.mem_singleton_self r.start) hspends
    have hsome : ¬(w.length = 0 || ways.isEmpty) = true := by
      simp [hw, List.ne_nil_of_mem hnext]
    rw [spells_eq_any, hways, Option.any_some, Rack.accepts.eq_def, if_neg hsome]
    cases mode with
    | anagram =>
      refine List.any_eq_true.mpr ⟨next, hnext, Tiles.isEmpty_iff_tokens.mpr ?_⟩
      rw [hmode, Multiset.card_zero] at hcard
      exact Nat.le_zero.mp hcard
    | subanagram => rfl
    | consist min max => simpa [RackMode.Allows] using hmode

/-! ## §5 The tiles of a text -/

/-- **The tiles of a rack** are the signs that it is written with, `*` apart. -/
theorem tokens_start_ofTokens (signs : List Token) :
    (ofTokens signs).start.tokens = (signs.filter (!·.isStar) : Multiset Token) := by
  induction signs with
  | nil => rfl
  | cons sign signs ih =>
    -- Each kind of sign stands in its own part of the tiles; a star is none of them.
    simp only [Tiles.tokens, start, ofTokens, lettersOf, classesOf] at ih ⊢
    cases sign with
    | letter l =>
      rw [List.filter_cons_of_pos rfl, ← Multiset.cons_coe, ← ih]
      simp [← Multiset.cons_coe]
    | any =>
      rw [List.filter_cons_of_pos rfl, ← Multiset.cons_coe, ← ih]
      simp [Multiset.replicate_succ]
    | star =>
      rw [List.filter_cons_of_neg (by decide), ← ih]
      simp
    | oneOf set =>
      rw [List.filter_cons_of_pos rfl, ← Multiset.cons_coe, ← ih]
      simp [← Multiset.cons_coe]

end Rack

/-- **Spending the tiles is assigning them**: every tile is used if none is left. -/
theorem exists_spends_iff_exists_assignment (mode : RackMode) (tiles : List Token)
    (unlimited : Bool) (w : Word) :
    (∃ rest, Spends unlimited tiles w rest ∧ mode.Allows w.length rest) ↔
      ∃ a : TileAssignment tiles unlimited w, mode.IsMetBy a := by
  rw [← tilesAt_univ]
  constructor
  · rintro ⟨rest, hspends, hmode⟩
    obtain ⟨a, -, rfl⟩ := TileAssignment.exists_of_spends hspends
    exact ⟨a, (a.allows_iff_isMetBy mode).mp hmode⟩
  · rintro ⟨a, hmode⟩
    exact ⟨_, a.spends (Finset.subset_univ _), (a.allows_iff_isMetBy mode).mpr hmode⟩

namespace Rack

/-- **A rack spells the words whose letters can be assigned to its tiles**: to different ones, each
letter to a tile that takes it or, if there is a `*`, to none. As an anagram, the word has to use
every tile; as a part it need not; and where lengths are given, it has to have one of them. The
empty word is never spelled. -/
theorem spells_iff_exists_assignment {text : String} {signs : List Token} {r : Rack}
    (hsigns : Token.read text = some signs) (hread : Rack.read text = some r) (mode : RackMode)
    (w : Word) :
    r.spells mode w = true ↔
      w ≠ [] ∧ ∃ a : TileAssignment (signs.filter (!·.isStar)) (signs.any Token.isStar) w,
        mode.IsMetBy a := by
  obtain rfl : r = ofTokens signs := by
    simp only [Rack.read, hsigns] at hread
    split at hread
    · cases hread
    · exact (Option.some.inj hread).symm
  rw [spells_iff_spends, tokens_start_ofTokens, exists_spends_iff_exists_assignment]
  rfl

/-- The letters of `XTA` can be assigned to all of an `A`, a class of `A` and `T`, and a blank. -/
theorem exists_assignment_of_class_and_blank :
    ∃ signs r, Token.read "a[AT]?" = some signs ∧ Rack.read "a[AT]?" = some r ∧
      ∃ a : TileAssignment (signs.filter (!·.isStar)) (signs.any Token.isStar) [0x58, 0x54, 0x41],
        RackMode.anagram.IsMetBy a := by
  obtain ⟨signs, r, hsigns, hread, hspells⟩ : ∃ signs r, Token.read "a[AT]?" = some signs ∧
      Rack.read "a[AT]?" = some r ∧ r.spells .anagram [0x58, 0x54, 0x41] = true :=
    ⟨_, _, rfl, rfl, by decide⟩
  exact ⟨signs, r, hsigns, hread,
    ((spells_iff_exists_assignment hsigns hread .anagram _).mp hspells).2⟩

end Rack

end WordStudy
