import Mathlib.Data.List.Induction
import WordStudy.Proofs.Lexicon.Definitions

/-!
# Senses and their tags

The senses of a definition are filed in groups, one for each tag **as it is written**, and a tag is
looked up **in either case**. Filing loses no sense and keeps the order of those with one tag. A look-up
gives the senses of the first group whose tag fits. So it gives all senses with the tag, unless there
are tags that differ in case only: then it gives those with the least of them.
-/

namespace WordStudy

open Text

namespace Definitions

/-- The tag of a sense as it is written, empty if there is none. -/
def senseTag (sense : String) : String := String.ofList (tagOf sense.toList)

/-! ## §1 Filing -/

/-- **Groups in order**: their tags ascend, and each has senses, all of them with its tag. -/
structure Filed (groups : List TaggedSenses) : Prop where
  ascending : groups.Pairwise (·.tag < ·.tag)
  tagged : ∀ group ∈ groups, group.senses ≠ [] ∧ ∀ sense ∈ group.senses, senseTag sense = group.tag

theorem filed_nil : Filed [] := ⟨.nil, List.forall_mem_nil _⟩

theorem filed_cons {group : TaggedSenses} {groups : List TaggedSenses} :
    Filed (group :: groups) ↔ (∀ next ∈ groups, group.tag < next.tag) ∧ group.senses ≠ [] ∧
      (∀ sense ∈ group.senses, senseTag sense = group.tag) ∧ Filed groups := by
  constructor
  · rintro ⟨hascending, htagged⟩
    obtain ⟨hfirst, hrest⟩ := List.pairwise_cons.mp hascending
    obtain ⟨⟨hne, hsenses⟩, hothers⟩ := List.forall_mem_cons.mp htagged
    exact ⟨hfirst, hne, hsenses, hrest, hothers⟩
  · rintro ⟨hfirst, hne, hsenses, hrest, hothers⟩
    exact ⟨List.pairwise_cons.mpr ⟨hfirst, hrest⟩, List.forall_mem_cons.mpr ⟨⟨hne, hsenses⟩, hothers⟩⟩

/-- The tags after a sense is filed are those before and its own. -/
theorem tag_of_mem_insertSense {tag sense : String} {groups : List TaggedSenses}
    {group : TaggedSenses} (h : group ∈ insertSense tag sense groups) :
    group.tag = tag ∨ ∃ old ∈ groups, group.tag = old.tag := by
  induction groups with
  | nil => exact .inl (by rw [List.mem_singleton.mp h])
  | cons first groups ih =>
    -- The sense goes into the first group, before it, or behind it.
    simp only [insertSense] at h
    split at h
    · rcases List.mem_cons.mp h with rfl | h
      · exact .inl rfl
      · exact .inr ⟨group, List.mem_cons_of_mem _ h, rfl⟩
    split at h
    · rcases List.mem_cons.mp h with rfl | h
      · exact .inl rfl
      · exact .inr ⟨group, h, rfl⟩
    · rcases List.mem_cons.mp h with rfl | h
      · exact .inr ⟨group, List.mem_cons_self, rfl⟩
      · rcases ih h with htag | ⟨old, hold, htag⟩
        · exact .inl htag
        · exact .inr ⟨old, List.mem_cons_of_mem _ hold, htag⟩

/-- **A sense is filed** under its tag. -/
theorem Filed.insertSense {groups : List TaggedSenses} (h : Filed groups) (sense : String) :
    Filed (insertSense (senseTag sense) sense groups) := by
  induction groups with
  | nil => exact filed_cons.mpr ⟨List.forall_mem_nil _, by simp, by simp, filed_nil⟩
  | cons group groups ih =>
    obtain ⟨hfirst, hne, hsenses, hrest⟩ := filed_cons.mp h
    simp only [Definitions.insertSense]
    split
    · next htag =>
      -- The group of this tag takes the sense; its tag, and so the order, stay.
      refine filed_cons.mpr ⟨fun next hnext => htag ▸ hfirst next hnext, by simp, ?_, hrest⟩
      intro other hother
      rcases List.mem_append.mp hother with hother | hother
      · exact (hsenses other hother).trans htag
      · rw [List.mem_singleton.mp hother]
    split
    · next hless =>
      -- A new group goes before the first one with a later tag.
      refine filed_cons.mpr ⟨?_, by simp, by simp, h⟩
      intro next hnext
      rcases List.mem_cons.mp hnext with rfl | hnext
      · exact hless
      · exact String.lt_trans hless (hfirst next hnext)
    · next hne' hnot =>
      -- Else it goes further behind, where no tag is before that of this group.
      refine filed_cons.mpr ⟨?_, hne, hsenses, ih hrest⟩
      intro next hnext
      rcases tag_of_mem_insertSense hnext with htag | ⟨old, hold, htag⟩
      · rw [htag]
        exact Std.lt_of_le_of_ne (String.not_lt.mp hnot) hne'
      · rw [htag]
        exact hfirst old hold

/-- The senses of groups that have none of a tag. -/
theorem filter_flatMap_senses_of_ne {groups : List TaggedSenses} (h : Filed groups) {tag : String}
    (hne : ∀ group ∈ groups, group.tag ≠ tag) :
    (groups.flatMap (·.senses)).filter (senseTag · == tag) = [] := by
  refine List.filter_eq_nil_iff.mpr fun sense hsense => ?_
  obtain ⟨group, hgroup, hmem⟩ := List.mem_flatMap.mp hsense
  rw [(h.tagged group hgroup).2 sense hmem]
  simpa using hne group hgroup

theorem filter_senses_self {group : TaggedSenses}
    (h : ∀ sense ∈ group.senses, senseTag sense = group.tag) :
    group.senses.filter (senseTag · == group.tag) = group.senses :=
  List.filter_eq_self.mpr fun sense hsense => by simp [h sense hsense]

/-- Where the tag of a sense is in front of those of groups, no tag belongs to both. -/
theorem Filed.filter_eq_nil_or {groups : List TaggedSenses} (h : Filed groups) {sense : String}
    (hless : ∀ group ∈ groups, senseTag sense < group.tag) (tag : String) :
    [sense].filter (senseTag · == tag) = [] ∨
      (groups.flatMap (·.senses)).filter (senseTag · == tag) = [] := by
  by_cases hsense : senseTag sense = tag
  · refine .inr (filter_flatMap_senses_of_ne h fun group hgroup htag => ?_)
    have hself := hless group hgroup
    rw [hsense, htag] at hself
    exact String.lt_irrefl _ hself
  · exact .inl (by simp [hsense])

/-- **A sense is filed behind those with its tag**, and the others stay as they are. -/
theorem Filed.filter_insertSense {groups : List TaggedSenses} (h : Filed groups)
    (sense tag : String) :
    ((Definitions.insertSense (senseTag sense) sense groups).flatMap (·.senses)).filter
        (senseTag · == tag) =
      (groups.flatMap (·.senses)).filter (senseTag · == tag) ++
        [sense].filter (senseTag · == tag) := by
  induction groups with
  | nil => simp [Definitions.insertSense]
  | cons group groups ih =>
    obtain ⟨hfirst, hne, hsenses, hrest⟩ := filed_cons.mp h
    simp only [Definitions.insertSense]
    split
    · next htag =>
      -- The sense comes to stand in front of the groups behind, so they must not have its tag.
      simp only [List.flatMap_cons, List.filter_append, List.append_assoc]
      rcases hrest.filter_eq_nil_or (htag ▸ hfirst) tag with hnil | hnil <;> rw [hnil] <;> simp
    split
    · next hless =>
      have hall : ∀ next ∈ group :: groups, senseTag sense < next.tag :=
        List.forall_mem_cons.mpr
          ⟨hless, fun next hnext => String.lt_trans hless (hfirst next hnext)⟩
      rw [List.flatMap_cons, List.filter_append]
      rcases h.filter_eq_nil_or hall tag with hnil | hnil <;> rw [hnil] <;> simp
    · rw [List.flatMap_cons, List.flatMap_cons, List.filter_append, List.filter_append, ih hrest,
        List.append_assoc]

/-- The senses of a definition that is written so. -/
def pieces (text : List Char) : List String := (splitOn senseSeparator text).map String.ofList

theorem group_eq_foldl (text : List Char) :
    group text =
      (pieces text).foldl (fun groups sense => insertSense (senseTag sense) sense groups) [] := by
  simp only [group, pieces, List.foldl_map, senseTag, String.toList_ofList]

/-- **A definition is filed**, and the senses with one tag stay in their order. -/
theorem filed_group (text : List Char) :
    Filed (group text) ∧ ∀ tag, ((group text).flatMap (·.senses)).filter (senseTag · == tag) =
      (pieces text).filter (senseTag · == tag) := by
  -- Stated over the groups so far, as the senses are put in one after another.
  have hfold : ∀ (senses : List String) (groups : List TaggedSenses), Filed groups →
      Filed (senses.foldl (fun groups sense => insertSense (senseTag sense) sense groups) groups) ∧
      ∀ tag, ((senses.foldl (fun groups sense => insertSense (senseTag sense) sense groups)
          groups).flatMap (·.senses)).filter (senseTag · == tag) =
        (groups.flatMap (·.senses)).filter (senseTag · == tag) ++
          senses.filter (senseTag · == tag) := by
    intro senses
    induction senses with
    | nil => exact fun groups h => ⟨h, by simp⟩
    | cons sense senses ih =>
      intro groups h
      obtain ⟨hfiled, hfilter⟩ := ih _ (h.insertSense sense)
      refine ⟨hfiled, fun tag => ?_⟩
      rw [List.foldl_cons, hfilter, h.filter_insertSense, List.append_assoc, ← List.filter_append]
      rfl
  rw [group_eq_foldl]
  simpa using hfold (pieces text) [] filed_nil

/-! ## §2 Looking a tag up -/

theorem sameTag_eq_map (a b : String) :
    sameTag a b = (a.toList.map Char.toLower == b.toList.map Char.toLower) := by
  change (a.map Char.toLower == b.map Char.toLower) = _
  simp only [beq_eq_beq, ← String.toList_inj, String.toList_map]

/-- **The senses with a tag**, in either case; of tags that differ in case only, those with the least
one. -/
def firstTagged (senses : List String) (tag : String) : List String :=
  senses.filter fun sense => sameTag (senseTag sense) tag &&
    senses.all fun other => !sameTag (senseTag other) tag || senseTag sense ≤ senseTag other

/-- The senses of one group among others. -/
theorem Filed.filter_flatMap_senses {front behind : List TaggedSenses} {group : TaggedSenses}
    (h : Filed (front ++ group :: behind)) :
    ((front ++ group :: behind).flatMap (·.senses)).filter (senseTag · == group.tag) =
      group.senses := by
  obtain ⟨hfront, hgroup, hbefore⟩ := List.pairwise_append.mp h.ascending
  obtain ⟨hafter, hbehind⟩ := List.pairwise_cons.mp hgroup
  -- A sense of another group has another tag, as no two groups have the same.
  have hnone : (front.flatMap (·.senses)).filter (senseTag · == group.tag) = [] := by
    refine filter_flatMap_senses_of_ne ⟨hfront, fun g hg => h.tagged g (by simp [hg])⟩ ?_
    intro other hother heq
    exact String.lt_irrefl _ (heq ▸ hbefore other hother group (by simp))
  have hnone' : (behind.flatMap (·.senses)).filter (senseTag · == group.tag) = [] := by
    refine filter_flatMap_senses_of_ne ⟨hbehind, fun g hg => h.tagged g (by simp [hg])⟩ ?_
    intro other hother heq
    exact String.lt_irrefl _ (heq ▸ hafter other hother)
  rw [List.flatMap_append, List.flatMap_cons, List.filter_append, List.filter_append, hnone, hnone',
    filter_senses_self (h.tagged group (by simp)).2]
  simp

/-- A tag that fits is not in front of the first group whose tag does. -/
theorem Filed.tag_le_of_sameTag {front behind : List TaggedSenses} {group : TaggedSenses}
    (h : Filed (front ++ group :: behind)) {tag : String}
    (hfront : ∀ other ∈ front, sameTag other.tag tag = false) :
    ∀ sense ∈ (front ++ group :: behind).flatMap (·.senses),
      sameTag (senseTag sense) tag = true → group.tag ≤ senseTag sense := by
  intro sense hsense hfits
  obtain ⟨-, hgroup, -⟩ := List.pairwise_append.mp h.ascending
  obtain ⟨other, hother, hmem⟩ := List.mem_flatMap.mp hsense
  rw [(h.tagged other hother).2 sense hmem] at hfits ⊢
  rcases List.mem_append.mp hother with hother | hother
  · rw [hfront other hother] at hfits
    cases hfits
  rcases List.mem_cons.mp hother with rfl | hother
  · exact String.le_refl _
  · exact String.not_lt.mp (String.lt_asymm ((List.pairwise_cons.mp hgroup).1 other hother))

/-- **The first group whose tag fits** has the senses with the least tag that does. -/
theorem Filed.find?_eq_firstTagged {groups : List TaggedSenses} (h : Filed groups) (tag : String) :
    (groups.find? fun group => sameTag group.tag tag).elim [] (·.senses) =
      firstTagged (groups.flatMap (·.senses)) tag := by
  cases hfind : groups.find? fun group => sameTag group.tag tag with
  | none =>
    refine (List.filter_eq_nil_iff.mpr fun sense hsense => ?_).symm
    obtain ⟨group, hgroup, hmem⟩ := List.mem_flatMap.mp hsense
    have hnot := List.find?_eq_none.mp hfind group hgroup
    simp [(h.tagged group hgroup).2 sense hmem, hnot]
  | some group =>
    obtain ⟨hsame, front, behind, rfl, hfront⟩ := List.find?_eq_some_iff_append.mp hfind
    -- The group has a sense, so its tag takes part in the comparison of all tags that fit.
    obtain ⟨first, hfirst⟩ := List.exists_mem_of_ne_nil _ (h.tagged group (by simp)).1
    have hfirstTag : senseTag first = group.tag := (h.tagged group (by simp)).2 first hfirst
    have hfirstMem : first ∈ (front ++ group :: behind).flatMap (·.senses) :=
      List.mem_flatMap.mpr ⟨group, by simp, hfirst⟩
    have hleast := h.tag_le_of_sameTag (by simpa using hfront)
    rw [Option.elim_some, ← h.filter_flatMap_senses, firstTagged]
    refine List.filter_congr fun sense hsense => ?_
    rw [Bool.eq_iff_iff]
    simp only [beq_iff_eq, Bool.and_eq_true, List.all_eq_true, Bool.or_eq_true, Bool.not_eq_true',
      decide_eq_true_eq]
    constructor
    · intro htag
      rw [htag]
      refine ⟨hsame, fun other hother => ?_⟩
      cases hfits : sameTag (senseTag other) tag with
      | false => exact .inl rfl
      | true => exact .inr (hleast other hother hfits)
    · rintro ⟨hfits, hall⟩
      have hle : senseTag sense ≤ group.tag := by
        rcases hall first hfirstMem with hnot | hle
        · rw [hfirstTag, hsame] at hnot
          cases hnot
        · rwa [hfirstTag] at hle
      exact String.le_antisymm hle (hleast sense hsense hfits)

/-- Where no two tags differ in case only, all senses with the tag are found. -/
theorem firstTagged_of_distinct {senses : List String} {tag : String}
    (h : ∀ s ∈ senses, ∀ t ∈ senses, sameTag (senseTag s) tag = true →
      sameTag (senseTag t) tag = true → senseTag s = senseTag t) :
    firstTagged senses tag = senses.filter fun sense => sameTag (senseTag sense) tag := by
  refine List.filter_congr fun sense hsense => ?_
  cases hfits : sameTag (senseTag sense) tag with
  | false => rfl
  | true =>
    rw [Bool.true_and, List.all_eq_true]
    intro other hother
    cases hother' : sameTag (senseTag other) tag with
    | false => rfl
    | true => simp [h sense hsense other hother hfits hother']

/-! ## §3 Definitions added -/

/-- The definitions after entries are added, the first one first. -/
def ofEntries (entries : List (Word × String)) : Definitions :=
  entries.foldl (fun d entry => d.add entry.1 entry.2) empty

/-- The entry defines the word, in any case: neither is it empty nor is its definition blank. -/
def defines (w : Word) (entry : Word × String) : Bool :=
  !entry.1.isEmpty && !(trim entry.2.toList).isEmpty && entry.1.upper == w.upper

/-- **The definition of a word** that counts, trimmed: the last one that is added. -/
def lastDefinition (entries : List (Word × String)) (w : Word) : Option (List Char) :=
  (entries.reverse.find? (defines w)).map fun entry => trim entry.2.toList

theorem groups_add (d : Definitions) (v : Word) (definition : String) (w : Word) :
    (d.add v definition).groups w =
      if defines w (v, definition) then group (trim definition.toList) else d.groups w := by
  unfold Definitions.add defines
  dsimp only
  -- A definition that is blank is not kept, so that the groups are as before.
  by_cases hblank : (v.isEmpty || (trim definition.toList).isEmpty) = true
  · rw [if_pos hblank, if_neg]
    simp only [Bool.or_eq_true] at hblank
    rcases hblank with h | h <;> simp [h]
  · rw [if_neg hblank]
    simp only [Bool.or_eq_true, not_or, Bool.not_eq_true] at hblank
    have hkey : (compare v.upper w.upper = .eq) = (v.upper = w.upper) :=
      propext Std.LawfulEqOrd.compare_eq_iff_eq
    simp only [groups, Std.TreeMap.getElem?_insert, hblank, hkey]
    split <;> simp_all

/-- **The groups of a word** are those of its last definition. -/
theorem groups_ofEntries (entries : List (Word × String)) (w : Word) :
    (ofEntries entries).groups w = (lastDefinition entries w).elim [] group := by
  induction entries using List.reverseRecOn with
  | nil => simp [ofEntries, lastDefinition, groups, empty]
  | append_singleton entries entry ih =>
    have hadd : ofEntries (entries ++ [entry]) = (ofEntries entries).add entry.1 entry.2 := by
      simp [ofEntries]
    rw [hadd, groups_add, ih, lastDefinition, lastDefinition, List.reverse_concat, List.find?_cons]
    cases defines w entry <;> rfl

theorem filed_groups (entries : List (Word × String)) (w : Word) :
    Filed ((ofEntries entries).groups w) := by
  rw [groups_ofEntries]
  cases lastDefinition entries w with
  | none => exact filed_nil
  | some text => exact (filed_group text).1

/-- **A tag looked up** gives what the senses of the word tell. -/
theorem sensesFor_ofEntries (entries : List (Word × String)) (w : Word) (tag : String) :
    (ofEntries entries).sensesFor w tag = firstTagged ((ofEntries entries).senses w) tag :=
  (filed_groups entries w).find?_eq_firstTagged tag

/-- The senses of a word are those of its last definition, in some order. -/
theorem senses_ofEntries_perm (entries : List (Word × String)) (w : Word) :
    ((ofEntries entries).senses w).Perm ((lastDefinition entries w).elim [] pieces) := by
  rw [senses, groups_ofEntries]
  cases lastDefinition entries w with
  | none => exact .refl _
  | some text => exact group_perm text

/-- **No sense is lost.** After any definitions are added, the senses of a word are those of the last one
that counts, cut at its separators. Those with one tag come in their order, and the others wherever
their tags put them. A tag that is looked up gives, of the senses with this tag in either case, those
with the least such tag; so it gives all of them if no two such tags differ. -/
theorem senses_of_entries (entries : List (Word × String)) (w : Word) :
    let d := ofEntries entries
    let written := (lastDefinition entries w).elim [] pieces
    (d.senses w).Perm written ∧
    (∀ tag, (d.senses w).filter (senseTag · == tag) = written.filter (senseTag · == tag)) ∧
    (∀ tag, d.sensesFor w tag = firstTagged (d.senses w) tag) ∧
    (∀ tag, (∀ s ∈ written, ∀ t ∈ written, sameTag (senseTag s) tag = true →
        sameTag (senseTag t) tag = true → senseTag s = senseTag t) →
      d.sensesFor w tag = (d.senses w).filter fun sense => sameTag (senseTag sense) tag) := by
  have hperm := senses_ofEntries_perm entries w
  refine ⟨hperm, ?_, sensesFor_ofEntries entries w, ?_⟩
  · intro tag
    rw [senses, groups_ofEntries]
    cases lastDefinition entries w with
    | none => rfl
    | some text => exact (filed_group text).2 tag
  · intro tag hdistinct
    -- Groups are only sorted among each other: in a group the senses keep their order.
    rw [sensesFor_ofEntries]
    exact firstTagged_of_distinct fun s hs t ht =>
      hdistinct s (hperm.mem_iff.mp hs) t (hperm.mem_iff.mp ht)

/-- Of two senses of `CAT` with the tag `n` in one case or the other, only the one with the capital is
found under `n`. -/
theorem sensesFor_of_two_cases :
    let d := ofEntries [(Word.ofText "CAT", "a feline [N CATS] / a tractor [n CATS]")]
    d.senses (Word.ofText "CAT") = ["a feline [N CATS]", "a tractor [n CATS]"] ∧
    (d.senses (Word.ofText "CAT")).map senseTag = ["N", "n"] ∧
    sameTag "N" "n" = true ∧ sameTag "n" "n" = true ∧
    d.sensesFor (Word.ofText "CAT") "n" = ["a feline [N CATS]"] := by
  simp only [sensesFor, sameTag_eq_map]
  decide +kernel

end Definitions

end WordStudy
