import WordStudy.Match.Rack
import WordStudy.Match.Pattern
import WordStudy.Proofs.Match.Spelling

/-!
# Lengths of matching words

The lengths that are read off a pattern or a rack bound the words it spells. A walk that stops at
such a bound, and a search that asks for such a length, lose no word.
-/

namespace WordStudy

/-! ## §1 Patterns -/

namespace Pattern

/-- A pattern spells the words that lead its live positions to the last one. -/
theorem spells_eq_any (p : Pattern) (w : Word) :
    p.spells w = (w.foldlM p.step p.start).any Live.complete := by
  change rules.spells p.tokens w =
    (w.foldlM (rules.step p.tokens) (rules.start p.tokens)).any Live.complete
  unfold SignRules.spells
  cases w.foldlM (rules.step p.tokens) (rules.start p.tokens) <;> rfl

/-- A word that a pattern spells has at least the least length. -/
theorem minLength_le {p : Pattern} {w : Word} (h : p.spells w = true) : p.minLength ≤ w.length :=
  ((SignRules.spells_iff _ _).mp h).countP_le_length

/-- A word that a pattern without `*` spells has just its length. -/
theorem length_eq_of_fixedLength {p : Pattern} {w : Word} (h : p.spells w = true) {n : Nat}
    (hn : p.fixedLength? = some n) : w.length = n := by
  unfold fixedLength? at hn
  split at hn
  · cases hn
  · next hstar =>
    cases hn
    exact ((SignRules.spells_iff _ _).mp h).length_eq (by simpa [rules] using hstar)

/-- **The reversed pattern spells the reversed words.** -/
theorem spells_reversed (p : Pattern) (w : Word) : p.reversed.spells w.reverse = p.spells w :=
  SignRules.spells_reverse _ _

@[simp] theorem minLength_reversed (p : Pattern) : p.reversed.minLength = p.minLength := by
  simp [minLength, reversed, List.countP_reverse]

@[simp] theorem fixedLength?_reversed (p : Pattern) : p.reversed.fixedLength? = p.fixedLength? := by
  simp [fixedLength?, reversed]

end Pattern

/-! ## §2 Racks -/

/-- The number of tiles. -/
def Tiles.size (tiles : Tiles) : Nat := tiles.letters.length + tiles.blanks + tiles.classes.length

namespace Rack

/-- A tile is spent for each letter, unless the rack has a `*`. -/
theorem size_take {tiles next : Tiles} {b : UInt8} (h : next ∈ take false tiles b) :
    next.size + 1 = tiles.size := by
  unfold take at h
  split at h
  · next hletter =>
    simp only [List.mem_singleton] at h
    have hpos := List.length_pos_of_mem (List.contains_iff_mem.mp hletter)
    have hlen := List.length_erase_of_mem (List.contains_iff_mem.mp hletter)
    subst h
    simp only [Tiles.size, hlen]
    omega
  split at h
  · split at h
    · next hblank =>
      simp only [List.mem_singleton] at h
      subst h
      simp only [Tiles.size]
      omega
    · simp at h
  · next sets hsets =>
    -- Any of the classes that have the letter may be spent for it.
    obtain ⟨set, hset, rfl⟩ := List.mem_map.mp h
    have hmem : set ∈ tiles.classes := by
      have hfilter := List.mem_filter.mp hset
      exact List.mem_eraseDups.mp hfilter.1
    have hpos := List.length_pos_of_mem hmem
    have hlen := List.length_erase_of_mem hmem
    simp only [Tiles.size, hlen]
    omega

/-- All ways after one more letter come from a way before it. -/
theorem mem_step {r : Rack} {ways next : List Tiles} {b : UInt8} (h : r.step ways b = some next)
    {tiles : Tiles} (htiles : tiles ∈ next) : ∃ before ∈ ways, tiles ∈ take r.unlimited before b := by
  unfold step at h
  split at h
  · cases h
  · cases h
    exact List.mem_flatMap.mp (List.mem_eraseDups.mp htiles)

/-- **The tiles left and the letters spelled** make up the rack, unless it has a `*`. -/
theorem size_foldlM {r : Rack} (hlimited : r.unlimited = false) (size : Nat) (w : Word)
    {ways last : List Tiles} (hways : ∀ tiles ∈ ways, tiles.size = size)
    (h : w.foldlM r.step ways = some last) : ∀ tiles ∈ last, tiles.size + w.length = size := by
  induction w generalizing ways size with
  | nil =>
    cases h
    simpa using hways
  | cons b w ih =>
    rw [List.foldlM_cons] at h
    obtain ⟨next, hstep, hrest⟩ := Option.bind_eq_some_iff.mp h
    have hspent : ∀ tiles ∈ next, tiles.size + 1 = size := by
      intro tiles htiles
      obtain ⟨before, hbefore, htake⟩ := mem_step hstep htiles
      rw [hlimited] at htake
      rw [size_take htake, hways before hbefore]
    -- A step that finds no way is none, so there was a tile to spend.
    obtain ⟨tiles, htiles⟩ : ∃ tiles, tiles ∈ next := by
      unfold step at hstep
      split at hstep
      · cases hstep
      · next hne =>
        cases hstep
        exact List.exists_mem_of_ne_nil _ hne
    have hone := hspent tiles htiles
    have hnext : ∀ tiles ∈ next, tiles.size = size - 1 := by
      intro tiles htiles
      have hsize := hspent tiles htiles
      omega
    intro t ht
    have hsum := ih (size - 1) hnext hrest t ht
    simp only [List.length_cons]
    omega

/-- A rack spells the words that it can be spent on as the mode asks. -/
theorem spells_eq_any (r : Rack) (mode : RackMode) (w : Word) :
    r.spells mode w = (w.foldlM r.step [r.start]).any (accepts mode · w.length) := by
  unfold spells
  cases w.foldlM r.step [r.start] <;> rfl

/-- What is left of a rack when it has spelled a word. -/
theorem exists_ways_of_spells {r : Rack} {mode : RackMode} {w : Word}
    (h : r.spells mode w = true) :
    ∃ ways, w.foldlM r.step [r.start] = some ways ∧ accepts mode ways w.length = true := by
  rw [spells_eq_any] at h
  exact (Option.any_eq_true _ _).mp h

/-- No rack spells the empty word. -/
theorem length_pos_of_spells {r : Rack} {mode : RackMode} {w : Word}
    (h : r.spells mode w = true) : 1 ≤ w.length := by
  obtain ⟨ways, _, haccepts⟩ := exists_ways_of_spells h
  unfold accepts at haccepts
  split at haccepts
  · cases haccepts
  · next hlen =>
    simp only [Bool.or_eq_true, decide_eq_true_eq, not_or] at hlen
    omega

/-- **A rack without `*` spells no word that is longer than the rack.** -/
theorem length_le_size {r : Rack} {mode : RackMode} {w : Word} (h : r.spells mode w = true)
    (hlimited : r.unlimited = false) : w.length ≤ r.size := by
  obtain ⟨ways, hways, haccepts⟩ := exists_ways_of_spells h
  have hsize := size_foldlM hlimited r.size w (by simp [start, Tiles.size, size]) hways
  cases ways with
  | nil => simp [accepts] at haccepts
  | cons tiles rest =>
    have hsum := hsize tiles (by simp)
    omega

/-- **A rack without `*` that is used up** spells words of its own length. -/
theorem length_eq_size {r : Rack} {w : Word} (h : r.spells .anagram w = true)
    (hlimited : r.unlimited = false) : w.length = r.size := by
  obtain ⟨ways, hways, haccepts⟩ := exists_ways_of_spells h
  have hsize := size_foldlM hlimited r.size w (by simp [start, Tiles.size, size]) hways
  unfold accepts at haccepts
  split at haccepts
  · cases haccepts
  · obtain ⟨tiles, htiles, hempty⟩ := List.any_eq_true.mp haccepts
    have hsum := hsize tiles htiles
    have hzero : tiles.size = 0 := by
      simp only [Tiles.isEmpty, Bool.and_eq_true, List.isEmpty_iff, beq_iff_eq] at hempty
      simp [Tiles.size, hempty]
    omega

/-- A word that consists of a rack has one of the lengths asked for. -/
theorem length_mem_of_consist {r : Rack} {least greatest : Nat} {w : Word}
    (h : r.spells (.consist least greatest) w = true) : least ≤ w.length ∧ w.length ≤ greatest := by
  obtain ⟨ways, _, haccepts⟩ := exists_ways_of_spells h
  unfold accepts at haccepts
  split at haccepts
  · cases haccepts
  · simpa using haccepts

/-- **The greatest length** bounds the words that a rack spells. -/
theorem length_le_maxLength {r : Rack} {mode : RackMode} {w : Word} (h : r.spells mode w = true)
    {n : Nat} (hn : r.maxLength? mode = some n) : w.length ≤ n := by
  -- Only the mode with bounds of its own has a greatest length despite a star.
  cases mode with
  | consist least greatest =>
    have hmode := (length_mem_of_consist h).2
    cases hu : r.unlimited with
    | true =>
      simp only [maxLength?, hu, if_true, Option.some.injEq] at hn
      omega
    | false =>
      simp only [maxLength?, hu, Bool.false_eq_true, if_false, Option.some.injEq] at hn
      have hsize := length_le_size h hu
      omega
  | _ =>
    cases hu : r.unlimited with
    | true => simp [maxLength?, hu] at hn
    | false =>
      have hsize := length_le_size h hu
      simp [maxLength?, hu] at hn
      omega

end Rack

end WordStudy
