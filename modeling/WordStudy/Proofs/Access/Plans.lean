import WordStudy.Attributes.Predicate
import WordStudy.Proofs.Access.Patterns
import WordStudy.Proofs.Access.Racks
import WordStudy.Search.Plan

/-!
# Checked planning

A search is planned from the texts of its conditions: patterns and racks are read for the lengths
that they imply, and listed letters are counted for the masks of the index. A window asks for the
draws of each word that was found. None of this makes a fault, **whatever the texts and words are**.
-/

namespace WordStudy

namespace Checked

/-! ## §1 Normal forms -/

/-- The lengths that a positive pattern or rack leaves possible, `none` if any. -/
def lengthHint : Condition → Checked (Option Bounds)
  | .pattern text false => do
    let pattern ← readPattern text
    return pattern.bind fun p => p.fixedLength?.map Bounds.exactly
  | .anagram letters false => do
    let rack ← readRack letters
    return rack.bind fun r => if r.unlimited then none else some (.exactly r.size)
  | .subanagram letters false => do
    let rack ← readRack letters
    return rack.bind fun r => if r.unlimited then none else some ⟨1, r.size⟩
  | .consist _ lengths false => return some ⟨max lengths.least 1, lengths.greatest⟩
  | _ => return none

/-- Add a condition to a draft, `none` if it contradicts a range. -/
def addToDraft (d : Draft) (c : Condition) : Checked (Option Draft) := do
  let c := c.upper
  match c.ranged? with
  | some (a, r) => return (d.ranges.narrow a r).map fun ranges => { d with ranges }
  | none => do
    let hint ← lengthHint c
    let ranges? :=
      match hint with
      | some r => d.ranges.narrow .length r
      | none => some d.ranges
    return ranges?.map fun ranges =>
      { others := if d.others.contains c then d.others else d.others ++ [c], ranges }

/-- The normal form of the conditions as a conjunction, `none` if they cannot all hold. -/
def normalise (spec : SearchSpec) : Checked (Option SearchSpec) := do
  let draft ← foldOption addToDraft .empty spec.conditions
  return draft.map fun d => .all d.conditions

theorem lengthHint_eq (c : Condition) : lengthHint c = pure c.lengthHint := by
  -- Only patterns and racks that are not negated are read for a length.
  cases c with
  | pattern text negated =>
    cases negated with
    | true => rfl
    | false =>
      rw [lengthHint, readPattern_eq]
      rfl
  | anagram letters negated =>
    cases negated with
    | true => rfl
    | false =>
      rw [lengthHint, readRack_eq]
      rfl
  | subanagram letters negated =>
    cases negated with
    | true => rfl
    | false =>
      rw [lengthHint, readRack_eq]
      rfl
  | consist letters lengths negated => cases negated <;> rfl
  | _ => rfl

theorem addToDraft_eq (d : Draft) (c : Condition) : addToDraft d c = pure (d.add c) := by
  unfold addToDraft Draft.add
  dsimp only
  cases c.upper.ranged? with
  | some range => rfl
  | none =>
    rw [lengthHint_eq]
    cases c.upper.lengthHint <;> rfl

theorem normalise_eq (spec : SearchSpec) : normalise spec = pure spec.normalise := by
  rw [normalise, foldOption_eq addToDraft_eq]
  exact pure_bind _ _

/-! ## §2 Plans -/

/-- The steps for any conditions that are to hold all, `none` if they cannot. -/
def conjunction (indexed : Bool) (spec : SearchSpec) : Checked (Option (List PlanStep)) := do
  match ← normalise spec with
  | none => return none
  | some spec => return Plan.steps indexed (spec.conditions.filter (!·.isWindow))

/-- The plan for conditions of which one is to hold. -/
def alternatives (indexed : Bool) (spec : SearchSpec) : Checked Plan := do
  let lists := spec.conditions.filter Condition.isList
  let branches ← (spec.conditions.filter Plan.isAlternative).mapM fun c =>
    conjunction indexed (SearchSpec.all (c :: lists))
  let branches := branches.filterMap id
  return if branches.isEmpty then .nothing
    else .any branches (RankWindow.ofConditions spec.conditions)

/-- The plan of a search. -/
def planOf (indexed : Bool) (spec : SearchSpec) : Checked Plan := do
  if !spec.conjunction && spec.conditions.any Plan.isAlternative then alternatives indexed spec
  else
    match ← conjunction indexed spec with
    | none => return .nothing
    | some steps => return .all steps (RankWindow.ofConditions spec.conditions)

theorem conjunction_eq (indexed : Bool) (spec : SearchSpec) :
    conjunction indexed spec = pure (Plan.conjunction indexed spec) := by
  rw [conjunction, normalise_eq, pure_bind, Plan.conjunction]
  cases spec.normalise <;> rfl

theorem alternatives_eq (indexed : Bool) (spec : SearchSpec) :
    alternatives indexed spec = pure (Plan.alternatives indexed spec) := by
  rw [alternatives, mapM_eq fun c _ => conjunction_eq indexed _, pure_bind, Plan.alternatives,
    List.filterMap_map]
  rfl

/-- **Any search** is planned without a fault. -/
theorem planOf_eq (indexed : Bool) (spec : SearchSpec) :
    planOf indexed spec = pure (Plan.ofSpec indexed spec) := by
  unfold planOf Plan.ofSpec
  rw [alternatives_eq, conjunction_eq, pure_bind]
  split
  · rfl
  · cases Plan.conjunction indexed spec <;> rfl

/-! ## §3 Predicates -/

/-- The masks for a list of letters, one for each different letter. -/
def lettersLike (letters : String) (negated : Bool) : Checked (List Predicate) := do
  let counts ← letterCounts (Word.ofText letters)
  return ((List.finRange 26).filter fun place => 0 < counts place).map fun place =>
    let times := if negated then 1 else counts place
    .like .word (String.ofList (Mask.containing (Char.ofNat (letterAt place).toNat) times)) negated

/-- The predicates of a condition. -/
def predicatesOf : Condition → Checked (List Predicate)
  | .containing letters negated => lettersLike letters negated
  | c => return RowQuery.ofCondition c

/-- The predicates of a list of conditions, all of which are to hold. -/
def rowQuery (conditions : List Condition) : Checked (List Predicate) := do
  let predicates ← conditions.mapM predicatesOf
  return predicates.flatten

theorem lettersLike_eq (letters : String) (negated : Bool) :
    lettersLike letters negated = pure (RowQuery.lettersLike letters negated) := by
  rw [lettersLike, letterCounts_eq, pure_bind, RowQuery.lettersLike, alphabet_eq_map,
    List.filter_map, List.map_map]
  rfl

theorem predicatesOf_eq (c : Condition) : predicatesOf c = pure (RowQuery.ofCondition c) := by
  cases c with
  | containing letters negated => exact lettersLike_eq letters negated
  | _ => rfl

theorem rowQuery_eq (conditions : List Condition) :
    rowQuery conditions = pure (RowQuery.ofConditions conditions) := by
  rw [rowQuery, mapM_eq fun c _ => predicatesOf_eq c, pure_bind, RowQuery.ofConditions,
    List.flatMap_def]

/-! ## §4 Windows -/

/-- What decides where a word is ranked. -/
def rankKey (tables : TileTables) (legacy : Bool) (w : Word) : Checked RankKey := do
  let count ← draws tables w.upper
  return ⟨count, if legacy then none else some w.upper.alphagram, w.upper⟩

/-- The words in the order of their ranks with their keys. -/
def rankWords (tables : TileTables) (legacy : Bool) (words : List Word) :
    Checked (List (RankKey × Word)) := do
  let keyed ← words.mapM fun w => do
    let key ← rankKey tables legacy w
    return (key, w)
  return dropRepeats (·.1) (keyed.mergeSort fun a b => RankKey.le a.1 b.1)

/-- What a window keeps of words that are ranked, `size` words being given. -/
def keepRanked (window : RankWindow) (size : Nat) (ranked : List (RankKey × Word)) : List Word :=
  let low := max (RankWindow.place size window.strict.least) (RankWindow.place size window.lax.least)
  let high :=
    min (RankWindow.place size window.strict.greatest) (RankWindow.place size window.lax.greatest)
  let draws := (ranked.map (·.1.draws)).toArray
  let last := ranked.length - 1
  let high := min high last
  let floor := RankWindow.place size window.strict.least
  let ceiling := min (RankWindow.place size window.strict.greatest) last
  let low := RankWindow.lowerEdge draws floor (min low high)
  let high := RankWindow.upperEdge draws (ceiling - high) high
  ((ranked.drop low).take (high - low + 1)).map (·.2)

/-- No rank of `size` words can be in the window. -/
def keepsNone (window : RankWindow) (size : Nat) : Bool :=
  let low := max (RankWindow.place size window.strict.least) (RankWindow.place size window.lax.least)
  let high :=
    min (RankWindow.place size window.strict.greatest) (RankWindow.place size window.lax.greatest)
  size = 0 || window.misses size || high < low

/-- The words in the window, in the order of their ranks. -/
def keepWindow (window : RankWindow) (tables : TileTables) (words : List Word) :
    Checked (List Word) := do
  if keepsNone window words.length then return []
  else
    let ranked ← rankWords tables window.legacy words
    return keepRanked window words.length ranked

theorem rankKey_eq (bag : TileBag) (legacy : Bool) (w : Word) :
    rankKey bag.tables legacy w = pure (.ofWord bag legacy w) := by
  rw [rankKey, draws_eq, pure_bind]
  rfl

theorem rankWords_eq (bag : TileBag) (legacy : Bool) (words : List Word) :
    rankWords bag.tables legacy words = pure (WordStudy.rankWords bag legacy words) := by
  have hkeyed := mapM_eq (l := words) (g := fun w => (RankKey.ofWord bag legacy w, w))
    (f := fun w => do
      let key ← rankKey bag.tables legacy w
      return (key, w)) fun w _ => by rw [rankKey_eq, pure_bind]
  rw [rankWords, hkeyed, pure_bind]
  rfl

/-- **A window** keeps what it should of any words without a fault. -/
theorem keepWindow_eq (window : RankWindow) (bag : TileBag) (words : List Word) :
    keepWindow window bag.tables words = pure (window.keep bag words) := by
  have hkeep : window.keep bag words = if keepsNone window words.length then []
      else keepRanked window words.length (WordStudy.rankWords bag window.legacy words) := rfl
  rw [keepWindow, hkeep, rankWords_eq, pure_bind]
  split <;> rfl

end Checked

end WordStudy
