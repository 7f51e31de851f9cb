import WordStudy.Proofs.Graph.Decode
import WordStudy.Proofs.Graph.Unfolding

/-!
# Which images are read, and as what

A node that was read is known by its run and by whether a word ends there, and no run is read while
it is being read already, so that what is known never changes and the table unfolds to the graph.
Hence an image that is read is **well formed**, and the words of its graph are those spelled along
the paths of the table. A well-formed image without paths that are too long is always read.
-/

namespace WordStudy

open Text

namespace Image

/-! ## §1 Names -/

/-- **The relation names nodes by their runs** and by whether a word ends there: a node has one
mark, and no two nodes have the same number. -/
structure IsNaming (named : Nat → Bool → Mark → Prop) : Prop where
  terminal_eq : ∀ run terminal m, named run terminal m → m.terminal = terminal
  mark_eq : ∀ run terminal m m', named run terminal m → named run terminal m' → m = m'
  number_inj : ∀ run terminal m run' terminal' m', named run terminal m →
    named run' terminal' m' → m.number = m'.number → run = run' ∧ terminal = terminal'

namespace Reading

/-- The marks of the nodes that are known. -/
def names (s : Reading) (run : Nat) (terminal : Bool) (m : Mark) : Prop :=
  ∃ c, s.known[key run terminal]? = some c ∧ c.node.mark = m

/-- **What holds of the nodes that are known** while the table is read. -/
structure Keyed (table : Array Nat) (s : Reading) : Prop where
  isNaming : IsNaming s.names
  number_lt : ∀ run terminal m, s.names run terminal m → m.number < s.size
  unfolds : ∀ (run : Nat) (terminal : Bool) (c : Counted), s.known[key run terminal]? = some c →
    Unfolds table s.names run c.node.edges
  zero_notMem : 0 ∉ s.active

/-- **How reading goes on**: what is known stays known, and nothing comes to be known of a run that
is being read. -/
structure Extends (s s' : Reading) : Prop where
  active_eq : s'.active = s.active
  kept : ∀ (key : Nat) (c : Counted), s.known[key]? = some c → s'.known[key]? = some c
  fresh : ∀ run ∈ s.active, ∀ terminal, s.known[key run terminal]? = none →
    s'.known[key run terminal]? = none

theorem Extends.refl (s : Reading) : s.Extends s := ⟨rfl, fun _ _ h => h, fun _ _ _ h => h⟩

theorem Extends.trans {s s' s'' : Reading} (h : s.Extends s') (h' : s'.Extends s'') :
    s.Extends s'' where
  active_eq := h'.active_eq.trans h.active_eq
  kept k c hc := h'.kept k c (h.kept k c hc)
  fresh run hrun terminal hnone :=
    h'.fresh run (h.active_eq ▸ hrun) terminal (h.fresh run hrun terminal hnone)

theorem Extends.names {s s' : Reading} (h : s.Extends s') {run : Nat} {terminal : Bool} {m : Mark}
    (hm : s.names run terminal m) : s'.names run terminal m :=
  let ⟨c, hc, hmark⟩ := hm
  ⟨c, h.kept _ c hc, hmark⟩

theorem keyed_start (table : Array Nat) : start.Keyed table := by
  refine ⟨⟨?_, ?_, ?_⟩, ?_, ?_, ?_⟩ <;> simp [start, names]

/-- Which runs are being read does not matter for what is known. -/
theorem Keyed.withActive {table : Array Nat} {s : Reading} (h : s.Keyed table)
    {active : List Nat} (hzero : 0 ∉ active) : Keyed table { s with active } :=
  ⟨h.isNaming, h.number_lt, h.unfolds, hzero⟩

/-! ## §2 Finishing a node -/

section Finish

variable {table : Array Nat} {s : Reading} {run : Nat} {terminal : Bool} {edges : Edges}

theorem known_finish (s : Reading) (run : Nat) (terminal : Bool) (edges : Edges) (below : Nat) :
    (s.finish run terminal edges below).2.known[key run terminal]? =
      some (s.finish run terminal edges below).1 := by
  simp [finish]

/-- What was known before a node is finished stays known. -/
theorem kept_finish (hnew : s.known[key run terminal]? = none) (edges : Edges) (below : Nat)
    {k : Nat} {c : Counted} (hc : s.known[k]? = some c) :
    (s.finish run terminal edges below).2.known[k]? = some c := by
  simp only [finish, Std.TreeMap.getElem?_insert]
  split
  · next heq =>
    rw [Std.compare_eq_iff_eq.mp heq, hc] at hnew
    cases hnew
  · exact hc

/-- The nodes that are known then are those known before and the one that is finished. -/
theorem known_finish_cases {below run' : Nat} {terminal' : Bool} {c : Counted}
    (hc : (s.finish run terminal edges below).2.known[key run' terminal']? = some c) :
    (run' = run ∧ terminal' = terminal ∧ c.node = ⟨⟨s.size, terminal, true⟩, edges⟩) ∨
      s.known[key run' terminal']? = some c := by
  simp only [finish, Std.TreeMap.getElem?_insert] at hc
  split at hc
  · next heq =>
    obtain ⟨rfl, rfl⟩ := key_inj (Std.compare_eq_iff_eq.mp heq)
    cases hc
    exact .inl ⟨rfl, rfl, rfl⟩
  · exact .inr hc

/-- **Finishing a node** whose edges the table unfolds to. -/
theorem Keyed.finish (h : s.Keyed table) (hnew : s.known[key run terminal]? = none)
    (hedges : Unfolds table s.names run edges) (below : Nat) :
    (s.finish run terminal edges below).2.Keyed table := by
  have hmono : ∀ run' terminal' m, s.names run' terminal' m →
      (s.finish run terminal edges below).2.names run' terminal' m := by
    rintro run' terminal' m ⟨c, hc, hmark⟩
    exact ⟨c, kept_finish hnew edges below hc, hmark⟩
  -- A mark is that of the new node, which has the next number, or was there before.
  have hcases : ∀ run' terminal' m, (s.finish run terminal edges below).2.names run' terminal' m →
      (run' = run ∧ terminal' = terminal ∧ m = ⟨s.size, terminal, true⟩) ∨
        s.names run' terminal' m := by
    rintro run' terminal' m ⟨c, hc, hmark⟩
    rcases known_finish_cases hc with ⟨rfl, rfl, hnode⟩ | hold
    · exact .inl ⟨rfl, rfl, by rw [← hmark, hnode]⟩
    · exact .inr ⟨c, hold, hmark⟩
  refine ⟨⟨?_, ?_, ?_⟩, ?_, ?_, ?_⟩
  · intro run' terminal' m hm
    rcases hcases _ _ _ hm with ⟨-, rfl, rfl⟩ | hold
    · rfl
    · exact h.isNaming.terminal_eq _ _ _ hold
  · rintro run' terminal' m m' ⟨c, hc, rfl⟩ ⟨c', hc', rfl⟩
    rw [hc] at hc'
    cases hc'
    rfl
  · intro run' terminal' m run'' terminal'' m' hm hm' hnumber
    rcases hcases _ _ _ hm with ⟨rfl, rfl, rfl⟩ | hold <;>
      rcases hcases _ _ _ hm' with ⟨rfl, rfl, rfl⟩ | hold'
    · exact ⟨rfl, rfl⟩
    · exact absurd hnumber.symm (Nat.ne_of_lt (h.number_lt _ _ _ hold'))
    · exact absurd hnumber (Nat.ne_of_lt (h.number_lt _ _ _ hold))
    · exact h.isNaming.number_inj _ _ _ _ _ _ hold hold' hnumber
  · intro run' terminal' m hm
    rcases hcases _ _ _ hm with ⟨-, -, rfl⟩ | hold
    · exact Nat.lt_succ_self s.size
    · exact Nat.lt_succ_of_lt (h.number_lt _ _ _ hold)
  · intro run' terminal' c hc
    rcases known_finish_cases hc with ⟨rfl, -, hnode⟩ | hold
    · rw [hnode]
      exact hedges.mono hmono
    · exact (h.unfolds _ _ _ hold).mono hmono
  · exact fun hzero => h.zero_notMem (List.mem_of_mem_erase hzero)

end Finish

end Reading

/-! ## §3 Reading runs and nodes -/

/-- The answer to a read: what was known is still known, and the node is known now. -/
structure KnowsNode (table : Array Nat) (run : Nat) (terminal : Bool) (c : Counted)
    (s s' : Reading) : Prop where
  keyed : s'.Keyed table
  goesOn : s.Extends s'
  known : s'.known[Reading.key run terminal]? = some c

/-- **Reading a run** gives the edges that the table unfolds to, if reading a node makes it known. -/
theorem unfolds_of_readRun {table : Array Nat}
    {descend : Nat → Bool → Reading → Except ImageFault (Counted × Reading)}
    (hdescend : ∀ run terminal s c s', s.Keyed table → descend run terminal s = .ok (c, s') →
      KnowsNode table run terminal c s s')
    {left index : Nat} {last : Option UInt8} {s s' : Reading} {edges : Edges} {words : Nat}
    (h : s.Keyed table) (hindex : index ≠ 0)
    (hread : readRun table descend left index last s = .ok ((edges, words), s')) :
    s'.Keyed table ∧ s.Extends s' ∧ Unfolds table s'.names index edges ∧
      ∃ entry, table[index]? = some entry ∧ ∀ k ∈ last, k < letterOf entry := by
  -- The target of the first entry is read before the entries behind it, so its key is still there.
  induction left generalizing index last s edges words with
  | zero => cases hread
  | succ left ih =>
    obtain ⟨entry, target, s₁, hentry, hupper, hletter, htarget, hrest⟩ := readRun_eq_ok hread
    obtain ⟨hkeyed, hextends, hknown⟩ := hdescend _ _ _ _ _ h htarget
    rcases hrest with ⟨hlast, -, rfl, rfl⟩ | ⟨hlast, others, more, hothers, -, rfl⟩
    · have hunfolds := Unfolds.last hindex hentry hupper hlast ⟨target, hknown, rfl⟩
        (hkeyed.unfolds _ _ _ hknown)
      exact ⟨hkeyed, hextends, hunfolds, entry, hentry, hletter⟩
    -- What was known of the first target is still known once the others were read.
    · obtain ⟨hkeyed', hextends', hunfolds, next, hnext, hgreater⟩ :=
        ih hkeyed (Nat.succ_ne_zero index) hothers
      have hknown' := hextends'.kept _ _ hknown
      have hall := Unfolds.more hindex hentry hupper hlast hnext (hgreater _ rfl)
        ⟨target, hknown', rfl⟩ (hkeyed'.unfolds _ _ _ hknown') hunfolds
      exact ⟨hkeyed', hextends.trans hextends', hall, entry, hentry, hletter⟩

/-- **Reading a node** makes it known. -/
theorem knowsNode_of_readNode {table : Array Nat} {depth run : Nat} {terminal : Bool}
    {s s' : Reading} {c : Counted} (h : s.Keyed table)
    (hread : readNode table depth run terminal s = .ok (c, s')) :
    KnowsNode table run terminal c s s' := by
  induction depth using Nat.strongRecOn generalizing run terminal s s' c with
  | ind depth ih =>
    rcases readNode_eq_ok hread with ⟨hknown, rfl⟩ | ⟨hnew, rfl, hfinish⟩ |
      ⟨hnew, hrun, hactive, below, edges, words, s₁, rfl, hedges, hfinish⟩
    · exact ⟨h, .refl s', hknown⟩
    · cases hfinish
      refine ⟨h.finish hnew .none 0, ⟨List.erase_of_not_mem h.zero_notMem,
        fun _ _ hc => Reading.kept_finish hnew .nil 0 hc, ?_⟩, Reading.known_finish ..⟩
      intro run hmem terminal' hnone
      rw [Option.eq_none_iff_forall_ne_some] at hnone ⊢
      intro c hc
      rcases Reading.known_finish_cases hc with ⟨rfl, -, -⟩ | hold
      · exact h.zero_notMem hmem
      · exact hnone c hold
    · cases hfinish
      have hzero : 0 ∉ run :: s.active := by simp [Ne.symm hrun, h.zero_notMem]
      obtain ⟨hkeyed, hextends, hunfolds, -⟩ := unfolds_of_readRun
        (fun _ _ _ _ _ hs hd => ih below (Nat.lt_succ_self below) hs hd)
        (h.withActive hzero) hrun hedges
      -- The run was being read all the time, so the node could not become known meanwhile.
      have hnew' := hextends.fresh run (List.mem_cons_self ..) terminal hnew
      refine ⟨hkeyed.finish hnew' hunfolds words, ⟨?_, ?_, ?_⟩, Reading.known_finish ..⟩
      · show s₁.active.erase run = s.active
        rw [hextends.active_eq, List.erase_cons_head]
      · exact fun k c hc => Reading.kept_finish hnew' edges words (hextends.kept k c hc)
      · intro run' hmem terminal' hnone
        have hnone' := hextends.fresh run' (List.mem_cons_of_mem _ hmem) terminal' hnone
        rw [Option.eq_none_iff_forall_ne_some] at hnone' ⊢
        intro c hc
        rcases Reading.known_finish_cases hc with ⟨rfl, -, -⟩ | hold
        · exact hactive hmem
        · exact hnone' c hold

/-! ## §4 What can be read -/

section Entries

variable {table : Array Nat}
  {descend : Nat → Bool → Reading → Except ImageFault (Counted × Reading)}
  {left index entry : Nat} {last : Option UInt8} {s s₁ s₂ : Reading} {target : Counted}

theorem any_le_letterOf_eq_false (hletter : ∀ k ∈ last, k < letterOf entry) :
    last.any (letterOf entry ≤ ·) = false := by
  simpa [Option.any_eq_false] using hletter

/-- An entry in order that is the last one **ends the run**. -/
theorem readRun_of_last (hentry : table[index]? = some entry)
    (hupper : isUpper (letterOf entry) = true) (hletter : ∀ k ∈ last, k < letterOf entry)
    (hlast : isLast entry = true)
    (hread : descend (runOf entry) (isTerminal entry) s = .ok (target, s₁)) :
    readRun table descend (left + 1) index last s =
      .ok ((.edge (letterOf entry) target.node.mark target.node.edges .nil, target.words), s₁) := by
  simp only [readRun, hentry, hupper, any_le_letterOf_eq_false hletter, hread, hlast, Bool.not_true,
    Bool.or_self, Bool.false_eq_true, if_false, if_true]

/-- Behind any other entry in order, **the rest of the run** is read. -/
theorem readRun_of_more (hentry : table[index]? = some entry)
    (hupper : isUpper (letterOf entry) = true) (hletter : ∀ k ∈ last, k < letterOf entry)
    (hlast : isLast entry = false)
    (hread : descend (runOf entry) (isTerminal entry) s = .ok (target, s₁)) {others : Edges}
    {words : Nat} (hothers : readRun table descend left (index + 1) (some (letterOf entry)) s₁ =
      .ok ((others, words), s₂)) :
    readRun table descend (left + 1) index last s =
      .ok ((.edge (letterOf entry) target.node.mark target.node.edges others,
        min (target.words + words) maxWord64), s₂) := by
  simp only [readRun, hentry, hupper, any_le_letterOf_eq_false hletter, hread, hlast, hothers,
    Bool.not_true, Bool.or_self, Bool.false_eq_true, if_false]

/-- A fault below an entry in order is **the fault of the run**. -/
theorem readRun_of_error (hentry : table[index]? = some entry)
    (hupper : isUpper (letterOf entry) = true) (hletter : ∀ k ∈ last, k < letterOf entry)
    {fault : ImageFault} (hread : descend (runOf entry) (isTerminal entry) s = .error fault) :
    readRun table descend (left + 1) index last s = .error fault := by
  simp only [readRun, hentry, hupper, any_le_letterOf_eq_false hletter, hread, Bool.not_true,
    Bool.or_self, Bool.false_eq_true, if_false]

/-- A fault in the rest of the run is the fault of the run. -/
theorem readRun_of_more_error (hentry : table[index]? = some entry)
    (hupper : isUpper (letterOf entry) = true) (hletter : ∀ k ∈ last, k < letterOf entry)
    (hlast : isLast entry = false)
    (hread : descend (runOf entry) (isTerminal entry) s = .ok (target, s₁)) {fault : ImageFault}
    (hothers : readRun table descend left (index + 1) (some (letterOf entry)) s₁ = .error fault) :
    readRun table descend (left + 1) index last s = .error fault := by
  simp only [readRun, hentry, hupper, any_le_letterOf_eq_false hletter, hread, hlast, hothers,
    Bool.not_true, Bool.or_self, Bool.false_eq_true, if_false]

end Entries

/-- The letter read last is that of the entry, and the one of the next entry is greater. -/
theorem letter_lt_of_next {table : Array Nat} {index entry next : Nat}
    (hnext : table[index + 1]? = some next) (hless : letterOf entry < letterOf next) :
    ∀ entry', table[index + 1]? = some entry' → ∀ k ∈ some (letterOf entry),
      k < letterOf entry' := by
  intro entry' hentry' k hk
  rw [hnext] at hentry'
  cases hentry'
  cases hk
  exact hless

/-- **A proper run is read** if the nodes that it leads to are, and is too deep if one of them is. -/
theorem readRun_of_isProper {table : Array Nat} {active : List Nat} {deep : Nat → Prop}
    {descend : Nat → Bool → Reading → Except ImageFault (Counted × Reading)} {index : Nat}
    (hproper : IsProper table index)
    (hdescend : ∀ entry, InRun table index entry → ∀ s : Reading, s.active = active →
      (∃ c s', descend (runOf entry) (isTerminal entry) s = .ok (c, s') ∧ s'.active = active) ∨
        descend (runOf entry) (isTerminal entry) s = .error .tooDeep ∧ deep entry)
    (last : Option UInt8)
    (hletter : ∀ entry, table[index]? = some entry → ∀ k ∈ last, k < letterOf entry)
    (s : Reading) (hactive : s.active = active) :
    (∃ edges words s', readRun table descend (table.size - index) index last s =
      .ok ((edges, words), s') ∧ s'.active = active) ∨
    readRun table descend (table.size - index) index last s = .error .tooDeep ∧
      ∃ entry, InRun table index entry ∧ deep entry := by
  -- The run is read entry by entry; the entries left in the table bound it from the first on.
  induction hproper generalizing last s with
  | @last index entry hentry hupper hlast =>
    obtain ⟨hindex, -⟩ := Array.getElem?_eq_some_iff.mp hentry
    have hleft : table.size - index = table.size - (index + 1) + 1 := by omega
    rw [hleft]
    rcases hdescend entry (.first hentry) s hactive with ⟨c, s', hread, hactive'⟩ | ⟨hread, hdeep⟩
    · rw [readRun_of_last hentry hupper (hletter entry hentry) hlast hread]
      exact .inl ⟨_, _, s', rfl, hactive'⟩
    · rw [readRun_of_error hentry hupper (hletter entry hentry) hread]
      exact .inr ⟨rfl, entry, .first hentry, hdeep⟩
  | @more index entry next hentry hupper hlast hnext hless _ ih =>
    obtain ⟨hindex, -⟩ := Array.getElem?_eq_some_iff.mp hentry
    have hleft : table.size - index = table.size - (index + 1) + 1 := by omega
    rw [hleft]
    rcases hdescend entry (.first hentry) s hactive with ⟨c, s₁, hread, hactive₁⟩ | ⟨hread, hdeep⟩
    · have hrest := ih (fun entry' h' => hdescend entry' (.behind hentry hlast h'))
        (some (letterOf entry)) (letter_lt_of_next hnext hless) s₁ hactive₁
      rcases hrest with ⟨others, words, s', hothers, hactive'⟩ | ⟨hothers, deeper, hmem, hdeep⟩
      · rw [readRun_of_more hentry hupper (hletter entry hentry) hlast hread hothers]
        exact .inl ⟨_, _, s', rfl, hactive'⟩
      · rw [readRun_of_more_error hentry hupper (hletter entry hentry) hlast hread hothers]
        exact .inr ⟨rfl, deeper, .behind hentry hlast hmem, hdeep⟩
    · rw [readRun_of_error hentry hupper (hletter entry hentry) hread]
      exact .inr ⟨rfl, entry, .first hentry, hdeep⟩

/-- **A node is read** if its runs are well formed and none of the runs being read can be reached
from it, or it is too deep because of a path as long as the depth that is left. -/
theorem readNode_of_isWellFormed {table : Array Nat} (depth : Nat) {run : Nat}
    (hform : IsWellFormed table run) {s : Reading}
    (hactive : ∀ r ∈ s.active, ¬ Reaches table run r) (terminal : Bool) :
    (∃ c s', readNode table depth run terminal s = .ok (c, s') ∧ s'.active = s.active) ∨
      readNode table depth run terminal s = .error .tooDeep ∧
        ∃ path, IsPath table run path ∧ path.length = depth := by
  induction depth generalizing run terminal s with
  | zero =>
    unfold readNode
    split
    · next c hknown => exact .inl ⟨c, s, rfl, rfl⟩
    · exact .inr ⟨rfl, [], .nil, rfl⟩
  | succ depth ih =>
    unfold readNode
    split
    · next c hknown => exact .inl ⟨c, s, rfl, rfl⟩
    simp only
    by_cases hrun : run = 0
    · subst hrun
      rw [if_pos rfl]
      refine .inl ⟨_, _, rfl, List.erase_of_not_mem ?_⟩
      exact fun hzero => hactive 0 hzero .refl
    have hself : run ∉ s.active := fun hmem => hactive run hmem .refl
    rw [if_neg hrun, if_neg (by simpa using hself)]
    -- The run of a target leads back neither to this run nor to one being read before it.
    have htarget (entry : Nat) (hentry : InRun table run entry) (s₁ : Reading)
        (hs₁ : s₁.active = run :: s.active) :
        (∃ c s', readNode table depth (runOf entry) (isTerminal entry) s₁ = .ok (c, s') ∧
          s'.active = run :: s.active) ∨
        readNode table depth (runOf entry) (isTerminal entry) s₁ = .error .tooDeep ∧
          ∃ path, IsPath table (runOf entry) path ∧ path.length = depth := by
      have hleads : Leads table run (runOf entry) := ⟨entry, ⟨hrun, hentry⟩, rfl⟩
      rw [← hs₁]
      apply ih (hform.of_reaches (.single hleads))
      intro r hr hreaches
      rw [hs₁] at hr
      rcases List.mem_cons.mp hr with rfl | hr
      · exact hform.acyclic r .refl (.head' hleads hreaches)
      · exact hactive r hr (.head hleads hreaches)
    rcases readRun_of_isProper (hform.proper run .refl hrun) htarget none (by simp)
      { s with active := run :: s.active } rfl with
      ⟨edges, words, s', hread, hactive'⟩ | ⟨hread, entry, hentry, path, hpath, hlength⟩
    · rw [hread]
      refine .inl ⟨_, _, rfl, ?_⟩
      show s'.active.erase run = s.active
      rw [hactive', List.erase_cons_head]
    · rw [hread]
      exact .inr ⟨rfl, entry :: path, .cons ⟨hrun, hentry⟩ hpath, congrArg (· + 1) hlength⟩

/-! ## §5 Images -/

/-- **A graph that is read** is what the table of the image unfolds to. -/
theorem unfolds_of_decode {bytes : List UInt8} {g : WordGraph} (h : decode bytes = .ok g) :
    ∃ table named, IsImage bytes table ∧ IsNaming named ∧
      named (rootRun table) false g.root.mark ∧
        Unfolds table named (rootRun table) g.root.edges := by
  unfold decode at h
  split at h
  · cases h
  next table htable =>
  split at h
  · cases h
  next c s hread =>
  cases h
  obtain ⟨hkeyed, -, hknown⟩ := knowsNode_of_readNode (Reading.keyed_start table) hread
  exact ⟨table, s.names, entriesOf_eq_ok_iff.mp htable, hkeyed.isNaming, ⟨c, hknown, rfl⟩,
    hkeyed.unfolds _ _ _ hknown⟩

/-- **A well-formed image is read**, or refused for a path from its root that is too long. -/
theorem decode_of_isWellFormed {bytes : List UInt8} {table : Array Nat} (himage : IsImage bytes table)
    (hform : IsWellFormed table (rootRun table)) :
    (∃ g, decode bytes = .ok g) ∨ decode bytes = .error .tooDeep ∧
      ∃ path, IsPath table (rootRun table) path ∧ maxDepth < path.length := by
  -- Nothing is being read at first, so that no cycle can be met.
  have hidle : ∀ r ∈ Reading.start.active, ¬ Reaches table (rootRun table) r := by
    simp [Reading.start]
  unfold decode
  rw [entriesOf_eq_ok_iff.mpr himage]
  simp only
  rcases readNode_of_isWellFormed (maxDepth + 1) hform hidle false with
    ⟨c, s, hread, -⟩ | ⟨hread, path, hpath, hlength⟩
  · rw [rootRun] at hread
    rw [hread]
    exact .inl ⟨_, rfl⟩
  · rw [rootRun] at hread
    rw [hread]
    exact .inr ⟨rfl, path, hpath, hlength ▸ Nat.lt_succ_self maxDepth⟩

/-- An image whose paths are short enough is read. -/
theorem exists_decode {bytes : List UInt8} {table : Array Nat} (himage : IsImage bytes table)
    (hform : IsWellFormed table (rootRun table))
    (hdepth : ∀ path, IsPath table (rootRun table) path → path.length ≤ maxDepth) :
    ∃ g, decode bytes = .ok g := by
  rcases decode_of_isWellFormed himage hform with hread | ⟨-, path, hpath, hlong⟩
  · exact hread
  · exact absurd (hdepth path hpath) (Nat.not_le_of_lt hlong)

/-- **What reading an image does, for every byte string.** If a graph is read, the byte string is
the image of a table, the runs that can be reached from the root are in order and form no cycle,
the words of the graph are just those spelled along the paths from the root, each listed once, the
word count is their number, capped, and no word ends at the root. And if the byte string is the
image of such a table, and no path from the root has more than `maxDepth` edges, a graph is read. -/
theorem decode_spec (bytes : List UInt8) :
    (∀ g, decode bytes = .ok g → ∃ table, IsImage bytes table ∧
      IsWellFormed table (rootRun table) ∧
      (∀ w, g.contains w = true ↔ Spells table (rootRun table) w) ∧
      (∀ w, w ∈ g.words ↔ Spells table (rootRun table) w) ∧
      Word.Ascending g.words ∧
      g.wordCount = min g.words.length maxWord64 ∧
      g.root.mark.terminal = false) ∧
    (∀ table, IsImage bytes table → IsWellFormed table (rootRun table) →
      (∀ path, IsPath table (rootRun table) path → path.length ≤ maxDepth) →
      ∃ g, decode bytes = .ok g) := by
  refine ⟨?_, fun table => exists_decode⟩
  intro g hread
  obtain ⟨table, named, himage, hnaming, hroot, hunfolds⟩ := unfolds_of_decode hread
  have hdescribes := describes_of_decode hread
  have hwords : ∀ w, w ∈ g.words ↔ Spells table (rootRun table) w :=
    hunfolds.mem_words_iff hnaming.terminal_eq
  refine ⟨table, himage, hunfolds.isWellFormed, ?_, hwords, hdescribes.sorted.ascending_words,
    hdescribes.wordCount_eq, hnaming.terminal_eq _ _ _ hroot⟩
  intro w
  rw [WordGraph.contains_iff_mem_words hdescribes.sorted, hwords]

/-- The words `AC`, `AD` and `BD`, where the run behind `B` is the end of the run behind `A`. -/
def imageOfOverlap : List UInt8 :=
  magic ++ [5, 0x400, 0xC41, 0x1242, 0x143, 0x344].flatMap wordBytes

example : (decode imageOfOverlap).toOption.map (·.words) =
    some [[0x41, 0x43], [0x41, 0x44], [0x42, 0x44]] := by rfl

end Image

end WordStudy
