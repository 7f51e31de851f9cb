import Mathlib.Algebra.Order.BigOperators.Group.Finset
import Mathlib.Data.FinEnum
import Mathlib.Data.Finset.Powerset
import WordStudy.Proofs.Tiles.Binomial
import WordStudy.Proofs.Word.Capitals

/-!
# Draws as sets of tiles

The tiles of a bag can be told apart, also those with one sign on them. What the recursion over
letters and blanks counts are **sets of such tiles**: as many as the word has letters, none of these
more often than the word has it, and the rest blanks. The argument splits a set by one sign at a
time. The caps on the way do not matter, for a capped sum of capped products is the capped sum of
the products.
-/

namespace WordStudy

open Text

/-! ## §1 Capped sums -/

theorem cappedAdd_min (a b : Nat) :
    cappedAdd (min a maxWord64) (min b maxWord64) = min (a + b) maxWord64 := by
  unfold cappedAdd
  omega

theorem cappedMul_min (a b : Nat) :
    cappedMul (min a maxWord64) (min b maxWord64) = min (a * b) maxWord64 := by
  unfold cappedMul
  by_cases hfits : a ≤ maxWord64 ∧ b ≤ maxWord64
  · rw [Nat.min_eq_left hfits.1, Nat.min_eq_left hfits.2]
  rcases Nat.eq_zero_or_pos a with rfl | ha
  · simp
  rcases Nat.eq_zero_or_pos b with rfl | hb
  · simp
  -- A factor that is cut keeps the product at the cap, since the other one is not zero.
  have hcap : maxWord64 ≤ min a maxWord64 * min b maxWord64 := by
    have hpos : 0 < maxWord64 := by decide
    rcases Nat.lt_or_ge maxWord64 a with ha' | ha'
    · rw [Nat.min_eq_right ha'.le]
      exact Nat.le_mul_of_pos_right _ (by omega)
    · rw [Nat.min_eq_right (a := b) (by omega)]
      exact Nat.le_mul_of_pos_left _ (by omega)
  have hle : min a maxWord64 * min b maxWord64 ≤ a * b :=
    Nat.mul_le_mul (Nat.min_le_left ..) (Nat.min_le_left ..)
  rw [Nat.min_eq_right hcap, Nat.min_eq_right (hcap.trans hle)]

/-- **A capped fold is a capped sum**, if each step adds its term up to the cap. -/
theorem foldlM_range_eq_min {step : Nat → Nat → Option Nat} {term : Nat → Nat}
    (hstep : ∀ i sum, step (min sum maxWord64) i = some (min (sum + term i) maxWord64)) (n : Nat) :
    (List.range n).foldlM step 0 = some (min (∑ i ∈ Finset.range n, term i) maxWord64) := by
  induction n with
  | zero => rfl
  | succ n ih =>
    rw [List.range_succ, List.foldlM_append, ih, Finset.sum_range_succ, Option.bind_eq_bind,
      Option.bind_some, List.foldlM_cons, hstep, Option.bind_eq_bind, Option.bind_some,
      List.foldlM_nil]
    rfl

/-- The ways to draw the needed letters when exactly `blanks` of them are replaced, as they are
without a cap. -/
def exactDraws : List (Nat × Nat) → Nat → Nat
  | [], blanks => if blanks = 0 then 1 else 0
  | (tiles, needed) :: rest, blanks =>
    ∑ replaced ∈ Finset.range (min blanks needed + 1),
      tiles.choose (needed - replaced) * exactDraws rest (blanks - replaced)

/-- **The caps on the way do not matter**, as long as the coefficients are exact up to the cap. -/
theorem replacementDraws_eq_min {overflow : Overflow} {needs : List (Nat × Nat)}
    (hexact : ∀ need ∈ needs, ∀ k,
      choose overflow need.1 k = some (min (need.1.choose k) maxWord64)) (blanks : Nat) :
    replacementDraws overflow needs blanks = some (min (exactDraws needs blanks) maxWord64) := by
  induction needs generalizing blanks with
  | nil =>
    rw [replacementDraws, exactDraws]
    split <;> rfl
  | cons need rest ih =>
    obtain ⟨tiles, needed⟩ := need
    have hchoose (k : Nat) : choose overflow tiles k = some (min (tiles.choose k) maxWord64) :=
      hexact (tiles, needed) (List.mem_cons_self ..) k
    have hrest := ih fun need hneed => hexact need (List.mem_cons_of_mem _ hneed)
    rw [replacementDraws, exactDraws]
    refine foldlM_range_eq_min (fun replaced sum => ?_) _
    rw [hchoose, Option.bind_eq_bind, Option.bind_some]
    split
    · next hzero =>
      -- No tiles can be drawn, and the product is zero as well.
      have hnone : tiles.choose (needed - replaced) = 0 := by
        have hcap : 0 < maxWord64 := by decide
        omega
      rw [hnone, Nat.zero_mul, Nat.add_zero]
      rfl
    · rw [hrest, Option.bind_some, cappedMul_min, cappedAdd_min]
      rfl

theorem stopsOrAgrees_replacementDraws (needs : List (Nat × Nat)) (blanks : Nat) :
    StopsOrAgrees (replacementDraws .stops needs blanks) (replacementDraws .wraps needs blanks) := by
  induction needs generalizing blanks with
  | nil => exact .refl _
  | cons need rest ih =>
    refine .foldlM (fun sum replaced => (stopsOrAgrees_choose ..).bind fun here => ?_) _ _
    split
    · exact .refl sum
    · exact (ih _).bind fun behind => .refl _

theorem stopsOrAgrees_drawsFor (blanks : Nat) (needs : List (Nat × Nat)) :
    StopsOrAgrees (drawsFor .stops blanks needs) (drawsFor .wraps blanks needs) :=
  .foldlM (fun _ used => (stopsOrAgrees_replacementDraws needs used).bind fun _ =>
    (stopsOrAgrees_choose blanks used).bind fun _ => .refl _) _ _

/-- Letters that are not needed do not matter. -/
theorem exactDraws_filter (amount needed : UInt8 → Nat) (signs : List UInt8) (blanks : Nat) :
    exactDraws ((signs.filter fun s => 0 < needed s).map fun s => (amount s, needed s)) blanks =
      exactDraws (signs.map fun s => (amount s, needed s)) blanks := by
  induction signs generalizing blanks with
  | nil => rfl
  | cons s signs ih =>
    -- A letter that is not needed has one way to be drawn, which is not at all.
    rw [List.filter_cons]
    split
    · simp only [List.map_cons, exactDraws, ih]
    · next hzero =>
      have hnone : needed s = 0 := by simpa using hzero
      rw [ih, List.map_cons, exactDraws, hnone]
      simp

/-- The letters needed altogether; those that are not needed do not matter. -/
theorem foldr_needed (amount needed : UInt8 → Nat) (signs : List UInt8) :
    ((signs.filter fun s => 0 < needed s).map fun s => (amount s, needed s)).foldr
      (fun need sum => need.2 + sum) 0 = (signs.map needed).sum := by
  induction signs with
  | nil => rfl
  | cons s signs ih =>
    rw [List.filter_cons, List.map_cons, List.sum_cons, ← ih]
    split
    · rfl
    · next hzero =>
      have hnone : needed s = 0 := by simpa using hzero
      rw [hnone, Nat.zero_add]

/-! ## §2 Tiles that can be told apart -/

/-- A tile as it lies in the bag: its sign, and a number that tells it apart from the others that
have this sign. -/
abbrev PhysicalTile : Type := UInt8 × Nat

/-- So many tiles with one sign. -/
def tilesWith (sign : UInt8) (amount : Nat) : Finset PhysicalTile := {sign} ×ˢ Finset.range amount

/-- The tiles with any of some signs. -/
def tilesWithAny (amount : UInt8 → Nat) (signs : Finset UInt8) : Finset PhysicalTile :=
  signs.biUnion fun sign => tilesWith sign (amount sign)

/-- How many of the tiles have the sign. -/
def countSign (tiles : Finset PhysicalTile) (sign : UInt8) : Nat :=
  (tiles.filter (·.1 = sign)).card

theorem sign_eq_of_mem {sign : UInt8} {amount : Nat} {t : PhysicalTile}
    (h : t ∈ tilesWith sign amount) : t.1 = sign :=
  Finset.mem_singleton.mp (Finset.mem_product.mp h).1

theorem sign_mem_of_mem {amount : UInt8 → Nat} {signs : Finset UInt8} {t : PhysicalTile}
    (h : t ∈ tilesWithAny amount signs) : t.1 ∈ signs := by
  obtain ⟨sign, hsign, ht⟩ := Finset.mem_biUnion.mp h
  exact sign_eq_of_mem ht ▸ hsign

@[simp] theorem card_tilesWith (sign : UInt8) (amount : Nat) :
    (tilesWith sign amount).card = amount := by
  simp [tilesWith]

/-- A sign that a set of tiles is split by does not matter for the other ones. -/
theorem countSign_filter_ne {sign other : UInt8} (hne : other ≠ sign)
    (tiles : Finset PhysicalTile) :
    countSign (tiles.filter (·.1 ≠ sign)) other = countSign tiles other := by
  unfold countSign
  rw [Finset.filter_filter]
  refine congrArg Finset.card (Finset.filter_congr fun t _ => ?_)
  exact and_iff_right_of_imp fun ht => ht ▸ hne

theorem countSign_add_card (tiles : Finset PhysicalTile) (sign : UInt8) :
    countSign tiles sign + (tiles.filter (·.1 ≠ sign)).card = tiles.card :=
  Finset.card_filter_add_card_filter_not _

/-- **Sets of tiles are split by a sign**: so many tiles with it, and any set of the other ones. -/
theorem card_split_sign {sign : UInt8} {amount count : Nat} {others : Finset PhysicalTile}
    (hothers : ∀ t ∈ others, t.1 ≠ sign) (p : Finset PhysicalTile → Prop) [DecidablePred p] :
    ((tilesWith sign amount ∪ others).powerset.filter fun hand =>
      countSign hand sign = count ∧ p (hand.filter (·.1 ≠ sign))).card =
        amount.choose count * (others.powerset.filter p).card := by
  -- The two parts of a union are the parts of its set again.
  have hwith {a b : Finset PhysicalTile} (ha : a ⊆ tilesWith sign amount) (hb : b ⊆ others) :
      (a ∪ b).filter (·.1 = sign) = a := by
    rw [Finset.filter_union, Finset.filter_true_of_mem fun t ht => sign_eq_of_mem (ha ht),
      Finset.filter_false_of_mem fun t ht => hothers t (hb ht), Finset.union_empty]
  have hwithout {a b : Finset PhysicalTile} (ha : a ⊆ tilesWith sign amount) (hb : b ⊆ others) :
      (a ∪ b).filter (·.1 ≠ sign) = b := by
    rw [Finset.filter_union,
      Finset.filter_false_of_mem fun t ht => by simp [sign_eq_of_mem (ha ht)],
      Finset.filter_true_of_mem fun t ht => hothers t (hb ht), Finset.empty_union]
  rw [← card_tilesWith sign amount, ← Finset.card_powersetCard, ← Finset.card_product,
    card_tilesWith]
  refine Finset.card_nbij' (fun hand => (hand.filter (·.1 = sign), hand.filter (·.1 ≠ sign)))
    (fun parts => parts.1 ∪ parts.2) ?_ ?_ ?_ ?_
  · intro hand hhand
    rw [Finset.mem_coe, Finset.mem_filter, Finset.mem_powerset] at hhand
    obtain ⟨hsub, hcount, hp⟩ := hhand
    rw [Finset.mem_coe, Finset.mem_product, Finset.mem_powersetCard, Finset.mem_filter,
      Finset.mem_powerset]
    refine ⟨⟨fun t ht => ?_, hcount⟩, fun t ht => ?_, hp⟩
    · obtain ⟨ht, hsign⟩ := Finset.mem_filter.mp ht
      exact (Finset.mem_union.mp (hsub ht)).resolve_right fun h => hothers t h hsign
    · obtain ⟨ht, hsign⟩ := Finset.mem_filter.mp ht
      exact (Finset.mem_union.mp (hsub ht)).resolve_left fun h => hsign (sign_eq_of_mem h)
  · rintro ⟨a, b⟩ hparts
    rw [Finset.mem_coe, Finset.mem_product, Finset.mem_powersetCard, Finset.mem_filter,
      Finset.mem_powerset] at hparts
    obtain ⟨⟨ha, hcount⟩, hb, hp⟩ := hparts
    rw [Finset.mem_coe, Finset.mem_filter, Finset.mem_powerset, countSign, hwith ha hb,
      hwithout ha hb]
    exact ⟨Finset.union_subset_union ha hb, hcount, hp⟩
  · intro hand _
    exact Finset.filter_union_filter_not_eq _ _
  · rintro ⟨a, b⟩ hparts
    rw [Finset.mem_coe, Finset.mem_product, Finset.mem_powersetCard, Finset.mem_filter,
      Finset.mem_powerset] at hparts
    exact Prod.ext (hwith hparts.1.1 hparts.2.1) (hwithout hparts.1.1 hparts.2.1)

/-! ## §3 Sets that lack some letters -/

section Lacking

variable (amount needed : UInt8 → Nat)

/-- The sets of tiles that have **no sign more often than it is needed**, and lack so many tiles to
what is needed altogether. -/
def setsLacking (signs : List UInt8) (lacking : Nat) : Finset (Finset PhysicalTile) :=
  (tilesWithAny amount signs.toFinset).powerset.filter fun hand =>
    (∀ s ∈ signs, countSign hand s ≤ needed s) ∧ hand.card + lacking = (signs.map needed).sum

variable {amount needed}

/-- A set that has no sign more often than needed has no more tiles than needed. -/
theorem card_le_sum_needed {signs : List UInt8} (hnodup : signs.Nodup) {hand : Finset PhysicalTile}
    (hsub : hand ⊆ tilesWithAny amount signs.toFinset)
    (hcount : ∀ s ∈ signs, countSign hand s ≤ needed s) :
    hand.card ≤ (signs.map needed).sum := by
  have hsigns : ∀ t ∈ hand, t.1 ∈ signs.toFinset := fun t ht => sign_mem_of_mem (hsub ht)
  rw [Finset.card_eq_sum_card_fiberwise hsigns, ← List.sum_toFinset needed hnodup]
  exact Finset.sum_le_sum fun s hs => hcount s (List.mem_toFinset.mp hs)

/-- **The recursion counts the sets** that lack as many tiles as blanks are used. -/
theorem card_setsLacking {signs : List UInt8} (hnodup : signs.Nodup) (lacking : Nat) :
    (setsLacking amount needed signs lacking).card =
      exactDraws (signs.map fun s => (amount s, needed s)) lacking := by
  induction signs generalizing lacking with
  | nil =>
    rw [List.map_nil, exactDraws]
    split <;> simp_all [setsLacking, tilesWithAny, Finset.filter_singleton]
  | cons s signs ih =>
    obtain ⟨hnew, hnodup⟩ := List.nodup_cons.mp hnodup
    have hothers : ∀ t ∈ tilesWithAny amount signs.toFinset, t.1 ≠ s := by
      rintro t ht rfl
      exact hnew (List.mem_toFinset.mp (sign_mem_of_mem ht))
    have htiles : tilesWithAny amount (s :: signs).toFinset =
        tilesWith s (amount s) ∪ tilesWithAny amount signs.toFinset := by
      rw [List.toFinset_cons, tilesWithAny, Finset.biUnion_insert]
      rfl
    -- What is said of the other signs is said of the tiles that have another sign.
    have hcounts (hand : Finset PhysicalTile) : (∀ s' ∈ signs, countSign hand s' ≤ needed s') ↔
        ∀ s' ∈ signs, countSign (hand.filter (·.1 ≠ s)) s' ≤ needed s' := by
      refine forall₂_congr fun s' hs' => ?_
      rw [countSign_filter_ne]
      rintro rfl
      exact hnew hs'
    -- The sets are told apart by how many tiles with the first sign they lack.
    have hlacks : ∀ hand ∈ setsLacking amount needed (s :: signs) lacking,
        needed s - countSign hand s ∈ Finset.range (min lacking (needed s) + 1) := by
      intro hand hhand
      obtain ⟨hsub, hcount, htotal⟩ := Finset.mem_filter.mp hhand
      obtain ⟨-, hrest⟩ := List.forall_mem_cons.mp hcount
      have hsub' : hand.filter (·.1 ≠ s) ⊆ tilesWithAny amount signs.toFinset := by
        intro t ht
        obtain ⟨ht, hsign⟩ := Finset.mem_filter.mp ht
        have hunion := htiles ▸ Finset.mem_powerset.mp hsub ht
        exact (Finset.mem_union.mp hunion).resolve_left fun h => hsign (sign_eq_of_mem h)
      have hfew := card_le_sum_needed hnodup hsub' ((hcounts hand).mp hrest)
      have hsplit := countSign_add_card hand s
      rw [List.map_cons, List.sum_cons] at htotal
      rw [Finset.mem_range]
      omega
    rw [Finset.card_eq_sum_card_fiberwise hlacks, List.map_cons, exactDraws]
    refine Finset.sum_congr rfl fun replaced hreplaced => ?_
    rw [← ih hnodup]
    refine Eq.trans ?_ (card_split_sign hothers _)
    rw [← htiles, setsLacking, Finset.filter_filter]
    refine congrArg Finset.card (Finset.filter_congr fun hand _ => ?_)
    have hsplit := countSign_add_card hand s
    rw [Finset.mem_range] at hreplaced
    rw [List.forall_mem_cons, List.map_cons, List.sum_cons, hcounts]
    constructor
    · rintro ⟨⟨⟨hfirst, hrest⟩, htotal⟩, hlack⟩
      exact ⟨by omega, hrest, by omega⟩
    · rintro ⟨hfirst, hrest, htotal⟩
      exact ⟨⟨⟨by omega, hrest⟩, by omega⟩, by omega⟩

variable (amount needed) in
/-- **Any tile with one more sign may fill what is lacking**: sets of a given size are told apart by
how many such tiles they have. -/
theorem card_setsFilled {signs : List UInt8} (hnodup : signs.Nodup) {blank : UInt8}
    (hblank : blank ∉ signs) :
    (((tilesWithAny amount (insert blank signs.toFinset)).powersetCard (signs.map needed).sum).filter
      fun hand => ∀ s ∈ signs, countSign hand s ≤ needed s).card =
      ∑ used ∈ Finset.range (min (amount blank) (signs.map needed).sum + 1),
        exactDraws (signs.map fun s => (amount s, needed s)) used * (amount blank).choose used := by
  have hothers : ∀ t ∈ tilesWithAny amount signs.toFinset, t.1 ≠ blank := by
    rintro t ht rfl
    exact hblank (List.mem_toFinset.mp (sign_mem_of_mem ht))
  have hcounts (hand : Finset PhysicalTile) : (∀ s ∈ signs, countSign hand s ≤ needed s) ↔
      ∀ s ∈ signs, countSign (hand.filter (·.1 ≠ blank)) s ≤ needed s := by
    refine forall₂_congr fun s hs => ?_
    rw [countSign_filter_ne]
    rintro rfl
    exact hblank hs
  have htiles : tilesWithAny amount (insert blank signs.toFinset) =
      tilesWith blank (amount blank) ∪ tilesWithAny amount signs.toFinset := by
    rw [tilesWithAny, Finset.biUnion_insert]
    rfl
  -- A hand is counted by its blanks, and for each number of them by what is left of it.
  rw [htiles, Finset.card_eq_sum_card_fiberwise (f := fun hand => countSign hand blank)
    (t := Finset.range (min (amount blank) (signs.map needed).sum + 1))]
  -- Handfuls with that many blanks are pairs of blanks and of letters.
  · refine Finset.sum_congr rfl fun used hused => ?_
    rw [← card_setsLacking hnodup, Nat.mul_comm]
    refine Eq.trans ?_ (card_split_sign hothers _)
    rw [Finset.filter_filter]
    refine congrArg Finset.card (Finset.ext fun hand => ?_)
    have hsplit := countSign_add_card hand blank
    rw [Finset.mem_filter, Finset.mem_filter, Finset.mem_powersetCard, Finset.mem_powerset, hcounts]
    constructor
    · rintro ⟨⟨hsub, hcard⟩, hrest, hcount⟩
      exact ⟨hsub, hcount, hrest, by omega⟩
    · rintro ⟨hsub, hcount, hrest, htotal⟩
      exact ⟨⟨hsub, by omega⟩, hrest, hcount⟩
  -- No hand has more blanks than the bag, or than it has tiles.
  · intro hand hhand
    obtain ⟨hmem, -⟩ := Finset.mem_filter.mp hhand
    obtain ⟨hsub, hcard⟩ := Finset.mem_powersetCard.mp hmem
    have hsplit := countSign_add_card hand blank
    have hbag : countSign hand blank ≤ amount blank := by
      rw [← card_tilesWith blank (amount blank)]
      refine Finset.card_le_card fun t ht => ?_
      obtain ⟨ht, hsign⟩ := Finset.mem_filter.mp ht
      exact (Finset.mem_union.mp (hsub ht)).resolve_right fun h => hothers t h hsign
    show countSign hand blank ∈ Finset.range _
    rw [Finset.mem_range]
    omega

end Lacking

/-- The counts of some letters make up a word that has no other ones. -/
theorem sum_count_eq_length {letters : List UInt8} (hnodup : letters.Nodup) {w : Word}
    (hw : ∀ b ∈ w, b ∈ letters) : (letters.map w.count).sum = w.length := by
  rw [← List.sum_toFinset _ hnodup]
  simpa only [Multiset.coe_count, Multiset.coe_card] using
    Multiset.sum_count_eq_card (m := (w : Multiset UInt8)) fun b hb =>
      List.mem_toFinset.mpr (hw b hb)

/-! ## §4 Draws of a word -/

namespace TileBag

variable {bag : TileBag} {w : Word}

/-- **All tiles of the bag**, letters and blanks. -/
def allTiles (bag : TileBag) : Finset PhysicalTile :=
  tilesWithAny bag.tiles.value (insert blankSign alphabet.toFinset)

/-- **The sets of tiles that give the word**: as many tiles as it has letters, and no letter more
often than it has it. All that is no letter is a blank. -/
def handfuls (bag : TileBag) (w : Word) : Finset (Finset PhysicalTile) :=
  (bag.allTiles.powersetCard w.length).filter fun hand =>
    ∀ l ∈ alphabet, countSign hand l ≤ w.count l

theorem nodup_alphabet : alphabet.Nodup := by decide +kernel

theorem blankSign_notMem_alphabet : blankSign ∉ alphabet := by
  rw [mem_alphabet_iff]
  decide

theorem letterCount_eq (hw : w.InCapitals) (hfew : ∀ l, w.count l ≤ maxLetterCount) (l : UInt8) :
    w.letterCount l = w.count l := by
  rw [Word.letterCount, Word.upper_of_isUpper hw, Nat.min_eq_right (hfew l)]

/-- **There always is a number of draws where numbers wrap round**, and where they stop there is the
same one or none. -/
theorem drawsIn_wraps (bag : TileBag) (w : Word) :
    bag.drawsIn .wraps w = some (bag.draws w) ∧ ∀ n ∈ bag.drawsIn .stops w, n = bag.draws w := by
  obtain ⟨n, hwraps, hstops⟩ := stopsOrAgrees_drawsFor bag.blanks (bag.needs w)
  have hdraws : bag.draws w = n := by rw [draws, drawsIn, hwraps, Option.getD_some]
  exact ⟨hdraws ▸ hwraps, hdraws ▸ hstops⟩

/-- **The number of draws is a number of sets of tiles.** The bag has at most 100 tiles of each
letter and at most 100 blanks, and the word of capital letters has none of them more than 255 times.
Then the draws of the word are the sets of tiles of the bag, all of them told apart, that have as
many tiles as the word letters, and no letter more often than the word; if they are more than 64
bits can hold, the greatest such number is given. No product on the way is too great for its width,
so that the number is the same whether overflow stops a run or not. -/
theorem draws_eq_card_handfuls (hletters : ∀ l ∈ alphabet, bag.frequency l ≤ 100)
    (hblanks : bag.blanks ≤ 100) (hw : w.InCapitals) (hfew : ∀ l, w.count l ≤ 255) :
    (∀ overflow, bag.drawsIn overflow w = some (min maxWord64 (bag.handfuls w).card)) ∧
      bag.draws w = min maxWord64 (bag.handfuls w).card := by
  have hneeds : bag.needs w =
      (alphabet.filter fun l => 0 < w.count l).map fun l => (bag.frequency l, w.count l) := by
    -- A letter has at most 100 tiles, so that no product is cut.
    simp only [needs, letterCount_eq hw hfew]
  have hexact (overflow : Overflow) : ∀ need ∈ bag.needs w, ∀ k,
      choose overflow need.1 k = some (min (need.1.choose k) maxWord64) := by
    rw [hneeds]
    intro need hneed
    obtain ⟨l, hl, rfl⟩ := List.mem_map.mp hneed
    have hl := hletters l (List.mem_filter.mp hl).1
    exact choose_eq_min_of_le overflow (by omega)
  have hsum : (alphabet.map w.count).sum = w.length :=
    sum_count_eq_length nodup_alphabet fun b hb => (mem_alphabet_iff b).mpr (hw b hb)
  have htotal : (bag.needs w).foldr (fun need sum => need.2 + sum) 0 = w.length := by
    rw [hneeds, ← hsum, foldr_needed]
  have hcard := card_setsFilled bag.tiles.value w.count nodup_alphabet
    blankSign_notMem_alphabet
  rw [hsum] at hcard
  -- The sum over blanks is cut at the same greatest number at each step.
  have hdraws (overflow : Overflow) :
      bag.drawsIn overflow w = some (min maxWord64 (bag.handfuls w).card) := by
    unfold drawsIn drawsFor
    dsimp only
    rw [htotal, handfuls, allTiles, hcard, Nat.min_comm maxWord64]
    refine foldlM_range_eq_min (fun used total => ?_) _
    rw [replacementDraws_eq_min (hexact overflow), choose_eq_min_of_le overflow (by omega),
      Option.bind_eq_bind, Option.bind_some, Option.bind_some, cappedMul_min, cappedAdd_min,
      hneeds, exactDraws_filter]
    rfl
  exact ⟨hdraws, by rw [draws, hdraws, Option.getD_some]⟩

/-- Two tiles of one letter, one of the other and a blank give five draws of a word of the two
letters. -/
theorem draws_of_letters_and_blank :
    ∃ bag, ofTables "A:2 T:1 _:1" "" = .ok bag ∧ (∀ l ∈ alphabet, bag.frequency l ≤ 100) ∧
      bag.blanks ≤ 100 ∧ Word.InCapitals [0x41, 0x54] ∧
      (∀ l, List.count l [(0x41 : UInt8), 0x54] ≤ 255) ∧ bag.draws [0x41, 0x54] = 5 ∧
      (bag.handfuls [0x41, 0x54]).card = 5 := by
  have hread : ofTables "A:2 T:1 _:1" "" =
      .ok { tiles := [(0x41, 2), (0x54, 1), (0x5F, 1)], values := [] } := by decide +kernel
  refine ⟨_, hread, ?_⟩
  have hletters : ∀ l ∈ alphabet, TileBag.frequency
      { tiles := [(0x41, 2), (0x54, 1), (0x5F, 1)], values := [] } l ≤ 100 := by decide +kernel
  have hcapitals : Word.InCapitals [0x41, 0x54] := by decide +kernel
  have hfew : ∀ l, List.count l [(0x41 : UInt8), 0x54] ≤ 255 :=
    fun l => List.count_le_length.trans (by decide)
  have hdraws : TileBag.draws { tiles := [(0x41, 2), (0x54, 1), (0x5F, 1)], values := [] }
      [0x41, 0x54] = 5 := by decide +kernel
  obtain ⟨-, hcard⟩ := draws_eq_card_handfuls hletters (by decide +kernel) hcapitals hfew
  rw [hdraws] at hcard
  refine ⟨hletters, by decide +kernel, hcapitals, hfew, hdraws, ?_⟩
  have hcap : 5 < maxWord64 := by decide
  omega

end TileBag

end WordStudy
