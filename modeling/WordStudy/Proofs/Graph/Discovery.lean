import Mathlib.Data.Set.Insert
import WordStudy.Proofs.Graph.Reading

/-!
# How deep reading goes

A node is read when it is met first, and is known from then on. Reading follows the letters, so that
it meets a node along its **first path**, the one whose letters come before those of any other path
to it. The depth is measured along these paths only: a longer path to a node that was met along a
shorter one is never noticed. So a word of a graph that is read may be longer than the depth allows,
and which of two images is refused depends on their letters.
-/

namespace WordStudy

open Text

namespace Image

/-! ## §1 First paths -/

/-- What a node is known by: its run, and whether a word ends there. -/
abbrev NodeKey : Type := Nat × Bool

/-- The node that an entry leads to. -/
def targetOf (entry : Nat) : NodeKey := (runOf entry, isTerminal entry)

/-- The node at the end of a path. -/
def pathEnd : NodeKey → List Nat → NodeKey
  | node, [] => node
  | _, entry :: path => pathEnd (targetOf entry) path

/-- The nodes that paths from a node lead to. -/
def nodesBelow (table : Array Nat) (node : NodeKey) : Set NodeKey :=
  {x | ∃ path, IsPath table node.1 path ∧ pathEnd node path = x}

/-- **The first path** to the node at its end: no path to this node has smaller letters. -/
structure IsFirst (table : Array Nat) (node : NodeKey) (path : List Nat) : Prop where
  isPath : IsPath table node.1 path
  not_lt : ∀ other, IsPath table node.1 other → pathEnd node other = pathEnd node path →
    Word.order (other.map letterOf) (path.map letterOf) ≠ .lt

/-- A first path to a node that is not known. -/
def IsNew (table : Array Nat) (known : Set NodeKey) (node : NodeKey) (path : List Nat) : Prop :=
  IsFirst table node path ∧ pathEnd node path ∉ known

/-- **A node is too deep** if one that is not known lies as far from it as the depth that is
left. -/
def IsTooDeep (table : Array Nat) (known : Set NodeKey) (depth : Nat) (node : NodeKey) : Prop :=
  ∃ path, IsNew table known node path ∧ depth ≤ path.length

/-- The nodes that the entries of a run lead to. -/
def nodesOfRun (table : Array Nat) (run : Nat) : Set NodeKey :=
  {x | ∃ entry, InRun table run entry ∧ x ∈ nodesBelow table (targetOf entry)}

/-- The nodes that the entries of a run with smaller letters lead to. -/
def nodesBefore (table : Array Nat) (run entry : Nat) : Set NodeKey :=
  {x | ∃ other, InRun table run other ∧ letterOf other < letterOf entry ∧
    x ∈ nodesBelow table (targetOf other)}

section Paths

variable {table : Array Nat} {known : Set NodeKey} {node : NodeKey} {run entry other : Nat}
  {path : List Nat}

theorem self_mem_nodesBelow (table : Array Nat) (node : NodeKey) : node ∈ nodesBelow table node :=
  ⟨[], .nil, rfl⟩

/-- No word comes before the empty one. -/
theorem isFirst_nil (table : Array Nat) (node : NodeKey) : IsFirst table node [] := by
  refine ⟨.nil, fun other _ _ => ?_⟩
  cases other with
  | nil => simp [Word.order]
  | cons entry other => simp [Word.order]

/-- **Below a node** there is the node itself and what its entries lead to. -/
theorem mem_nodesBelow_iff {x : NodeKey} (hrun : node.1 ≠ 0) :
    x ∈ nodesBelow table node ↔ x = node ∨ x ∈ nodesOfRun table node.1 := by
  constructor
  · rintro ⟨path, hpath, rfl⟩
    cases hpath with
    | nil => exact .inl rfl
    | cons hedge hpath => exact .inr ⟨_, hedge.2, _, hpath, rfl⟩
  · rintro (rfl | ⟨entry, hentry, path, hpath, rfl⟩)
    · exact self_mem_nodesBelow table x
    · exact ⟨entry :: path, .cons ⟨hrun, hentry⟩ hpath, rfl⟩

theorem nodesBelow_of_run_eq_zero (hrun : node.1 = 0) : nodesBelow table node = {node} := by
  ext x
  constructor
  · rintro ⟨path, hpath, rfl⟩
    cases hpath with
    | nil => rfl
    | cons hedge _ => exact absurd hrun hedge.1
  · rintro rfl
    exact self_mem_nodesBelow table x

theorem reaches_pathEnd (node : NodeKey) (hpath : IsPath table node.1 path) :
    Reaches table node.1 (pathEnd node path).1 := by
  induction path generalizing node with
  | nil => exact .refl
  | cons entry path ih =>
    cases hpath with
    | cons hedge hpath => exact .head ⟨entry, hedge, rfl⟩ (ih (targetOf entry) hpath)

theorem IsPath.append (node : NodeKey) (hpath : IsPath table node.1 path) {more : List Nat}
    (hmore : IsPath table (pathEnd node path).1 more) :
    IsPath table node.1 (path ++ more) ∧
      pathEnd node (path ++ more) = pathEnd (pathEnd node path) more := by
  induction path generalizing node with
  | nil => exact ⟨hmore, rfl⟩
  | cons entry path ih =>
    cases hpath with
    | cons hedge hpath =>
      obtain ⟨happend, hend⟩ := ih (targetOf entry) hpath hmore
      exact ⟨.cons hedge happend, hend⟩

theorem nodesBelow_subset {x : NodeKey} (hx : x ∈ nodesBelow table node) :
    nodesBelow table x ⊆ nodesBelow table node := by
  obtain ⟨path, hpath, rfl⟩ := hx
  rintro _ ⟨more, hmore, rfl⟩
  obtain ⟨happend, hend⟩ := hpath.append node hmore
  exact ⟨path ++ more, happend, hend⟩

/-! ## §2 The letters of a run -/

/-- The letters behind an entry are **greater** than its own. -/
theorem IsProper.letterOf_lt (h : IsProper table run) (hentry : table[run]? = some entry)
    (hlast : isLast entry = false) (hother : InRun table (run + 1) other) :
    letterOf entry < letterOf other := by
  -- The letters ascend along the run, so the one behind is later than the next one.
  induction h generalizing entry with
  | last hfirst _ hends =>
    rw [hentry] at hfirst
    cases hfirst
    rw [hlast] at hends
    cases hends
  | more hfirst _ _ hnext hletter _ ih =>
    rw [hentry] at hfirst
    cases hfirst
    cases hother with
    | first hother =>
      rw [hnext] at hother
      cases hother
      exact hletter
    | behind hmiddle hgoes hother =>
      rw [hnext] at hmiddle
      cases hmiddle
      exact UInt8.lt_trans hletter (ih hnext hgoes hother)

/-- **The letter tells the entry** of a run. -/
theorem IsProper.eq_of_letterOf_eq (h : IsProper table run) (hentry : InRun table run entry)
    (hother : InRun table run other) (hletter : letterOf entry = letterOf other) :
    entry = other := by
  induction h with
  | last hfirst _ hlast =>
    rw [(inRun_of_last hfirst hlast).mp hentry, (inRun_of_last hfirst hlast).mp hother]
  | @more run first _ hfirst hupper hlast hnext hless hrest ih =>
    have hproper : IsProper table run := .more hfirst hupper hlast hnext hless hrest
    rcases (inRun_of_more hfirst hlast).mp hentry with rfl | hentry <;>
      rcases (inRun_of_more hfirst hlast).mp hother with rfl | hother
    · rfl
    · exact absurd hletter (UInt8.ne_of_lt (hproper.letterOf_lt hfirst hlast hother))
    · exact absurd hletter.symm (UInt8.ne_of_lt (hproper.letterOf_lt hfirst hlast hentry))
    · exact ih hentry hother

/-- Nothing comes before the first entry. -/
theorem nodesBefore_first (h : IsProper table run) (hentry : table[run]? = some entry) :
    nodesBefore table run entry = ∅ := by
  rw [Set.eq_empty_iff_forall_notMem]
  rintro x ⟨other, hother, hless, -⟩
  cases hother with
  | first hother =>
    rw [hentry] at hother
    cases hother
    exact absurd hless (UInt8.lt_irrefl _)
  | behind hfirst hlast hother =>
    rw [hentry] at hfirst
    cases hfirst
    exact absurd hless (UInt8.lt_asymm (h.letterOf_lt hentry hlast hother))

/-- Before a later entry there are the first one and those between them. -/
theorem nodesBefore_behind (h : IsProper table run) (hentry : table[run]? = some entry)
    (hlast : isLast entry = false) (hother : InRun table (run + 1) other) :
    nodesBefore table run other =
      nodesBelow table (targetOf entry) ∪ nodesBefore table (run + 1) other := by
  ext x
  constructor
  · rintro ⟨before, hbefore, hless, hx⟩
    rcases (inRun_of_more hentry hlast).mp hbefore with rfl | hbefore
    · exact .inl hx
    · exact .inr ⟨before, hbefore, hless, hx⟩
  · rintro (hx | ⟨before, hbefore, hless, hx⟩)
    · exact ⟨entry, .first hentry, h.letterOf_lt hentry hlast hother, hx⟩
    · exact ⟨before, .behind hentry hlast hbefore, hless, hx⟩

/-- **A first path along an entry** goes on as a first path, to a node that no entry before leads
to. -/
theorem isNew_cons_iff (hform : IsWellFormed table node.1) (hedge : IsEdge table node.1 entry) :
    IsNew table known node (entry :: path) ↔
      IsNew table (known ∪ nodesBefore table node.1 entry) (targetOf entry) path := by
  have hproper := hform.proper node.1 .refl hedge.1
  constructor
  · rintro ⟨⟨hpath, hfirst⟩, hnew⟩
    cases hpath with
    | cons _ hpath =>
      refine ⟨⟨hpath, fun other hother hend hless => ?_⟩, ?_⟩
      · refine hfirst (entry :: other) (.cons hedge hother) hend ?_
        rw [List.map_cons, List.map_cons, Word.order_cons_self]
        exact hless
      · rintro (hknown | ⟨before, hbefore, hless, other, hother, hend⟩)
        · exact hnew hknown
        · refine hfirst (before :: other) (.cons ⟨hedge.1, hbefore⟩ hother) hend ?_
          exact Word.order_of_first_lt hless _ _
  · rintro ⟨⟨hpath, hfirst⟩, hnew⟩
    refine ⟨⟨.cons hedge hpath, ?_⟩, fun hknown => hnew (.inl hknown)⟩
    rintro other hother hend hless
    cases hother with
    | nil =>
      -- The path would lead back to the node.
      have hback := reaches_pathEnd (targetOf entry) hpath
      have hrun : (pathEnd (targetOf entry) path).1 = node.1 := congrArg Prod.fst hend.symm
      rw [hrun] at hback
      exact hform.acyclic node.1 .refl (.head' ⟨entry, hedge, rfl⟩ hback)
    | @cons _ before other hbefore hother =>
      rw [List.map_cons, List.map_cons, Word.order_cons_cons, Ordering.then_eq_lt] at hless
      rcases hless with hless | ⟨hletter, hless⟩
      · have hsmaller := Std.compare_eq_lt.mp hless
        exact hnew (.inr ⟨before, hbefore.2, hsmaller, other, hother, hend⟩)
      · obtain rfl := hproper.eq_of_letterOf_eq hbefore.2 hedge.2 (Std.compare_eq_iff_eq.mp hletter)
        exact hfirst other hother hend hless

/-- **A node is too deep** if one of its entries leads to one that is, behind the entries before. -/
theorem isTooDeep_succ_iff (hform : IsWellFormed table node.1) (hrun : node.1 ≠ 0) {depth : Nat} :
    IsTooDeep table known (depth + 1) node ↔ ∃ entry, InRun table node.1 entry ∧
      IsTooDeep table (known ∪ nodesBefore table node.1 entry) depth (targetOf entry) := by
  constructor
  · rintro ⟨path, hnew, hlength⟩
    cases hnew.1.isPath with
    | nil => exact absurd hlength (Nat.not_succ_le_zero depth)
    | @cons _ entry path hedge _ =>
      exact ⟨entry, hedge.2, path, (isNew_cons_iff hform hedge).mp hnew,
        Nat.le_of_succ_le_succ hlength⟩
  · rintro ⟨entry, hentry, path, hnew, hlength⟩
    exact ⟨entry :: path, (isNew_cons_iff hform ⟨hrun, hentry⟩).mpr hnew,
      Nat.succ_le_succ hlength⟩

end Paths

/-! ## §3 What is known after reading -/

/-- What is known with a node is known with all that is below it. -/
def IsClosed (table : Array Nat) (known : Set NodeKey) : Prop :=
  ∀ node ∈ known, nodesBelow table node ⊆ known

theorem IsClosed.union_nodesBelow {table : Array Nat} {known : Set NodeKey}
    (h : IsClosed table known) (node : NodeKey) :
    IsClosed table (known ∪ nodesBelow table node) := by
  rintro x (hx | hx) y hy
  · exact .inl (h x hx hy)
  · exact .inr (nodesBelow_subset hx hy)

/-- Among known nodes, **nothing is too deep**. -/
theorem not_isTooDeep_of_mem {table : Array Nat} {known : Set NodeKey} (h : IsClosed table known)
    {node : NodeKey} (hnode : node ∈ known) (depth : Nat) : ¬ IsTooDeep table known depth node := by
  rintro ⟨path, hnew, -⟩
  exact hnew.2 (h node hnode ⟨path, hnew.1.isPath, rfl⟩)

namespace Reading

/-- The nodes that were read. -/
def nodes (s : Reading) : Set NodeKey := {node | ∃ c, s.known[key node.1 node.2]? = some c}

/-- **How a reading ends**: what it found is known besides what was known before, or it stops at
a path that is too long. -/
def EndsWith {α : Type} (s : Reading) (found : Set NodeKey) (tooLong : Prop) :
    Except ImageFault (α × Reading) → Prop
  | .ok (_, s') => s'.active = s.active ∧ s'.nodes = s.nodes ∪ found ∧ ¬ tooLong
  | .error fault => fault = .tooDeep ∧ tooLong

theorem nodes_finish (s : Reading) (run : Nat) (terminal : Bool) (edges : Edges) (below : Nat) :
    (s.finish run terminal edges below).2.nodes = insert (run, terminal) s.nodes := by
  ext ⟨run', terminal'⟩
  constructor
  · rintro ⟨c, hc⟩
    rcases known_finish_cases hc with ⟨rfl, rfl, -⟩ | hold
    · exact .inl rfl
    · exact .inr ⟨c, hold⟩
  · rintro (heq | ⟨c, hc⟩)
    · cases heq
      exact ⟨_, known_finish ..⟩
    -- The key tells nodes apart, so any other node keeps its entry.
    · by_cases hkey : key run terminal = key run' terminal'
      · obtain ⟨rfl, rfl⟩ := key_inj hkey
        exact ⟨_, known_finish ..⟩
      · refine ⟨c, ?_⟩
        simpa [finish, Std.TreeMap.getElem?_insert, hkey] using hc

end Reading

open Reading (EndsWith)

section Runs

variable {table : Array Nat} {index entry : Nat} (hentry : table[index]? = some entry)
include hentry

theorem nodesOfRun_of_last (hlast : isLast entry = true) :
    nodesOfRun table index = nodesBelow table (targetOf entry) := by
  ext x
  simp [nodesOfRun, inRun_of_last hentry hlast]

theorem nodesOfRun_of_more (hlast : isLast entry = false) :
    nodesOfRun table index =
      nodesBelow table (targetOf entry) ∪ nodesOfRun table (index + 1) := by
  ext x
  simp [nodesOfRun, inRun_of_more hentry hlast, or_and_right, exists_or]

/-- **An entry of a run is too deep** if the first one is, or a later one behind the first one and
those between them. -/
theorem exists_isTooDeep_of_more (hproper : IsProper table index) (hlast : isLast entry = false)
    {known : Set NodeKey} {depth : Nat} :
    (∃ other, InRun table index other ∧
      IsTooDeep table (known ∪ nodesBefore table index other) depth (targetOf other)) ↔
    IsTooDeep table known depth (targetOf entry) ∨ ∃ other, InRun table (index + 1) other ∧
      IsTooDeep table (known ∪ nodesBelow table (targetOf entry) ∪
        nodesBefore table (index + 1) other) depth (targetOf other) := by
  constructor
  · rintro ⟨other, hother, hdeep⟩
    rcases (inRun_of_more hentry hlast).mp hother with rfl | hother
    · rw [nodesBefore_first hproper hentry, Set.union_empty] at hdeep
      exact .inl hdeep
    · rw [nodesBefore_behind hproper hentry hlast hother, ← Set.union_assoc] at hdeep
      exact .inr ⟨other, hother, hdeep⟩
  · rintro (hdeep | ⟨other, hother, hdeep⟩)
    · refine ⟨entry, .first hentry, ?_⟩
      rwa [nodesBefore_first hproper hentry, Set.union_empty]
    · refine ⟨other, .behind hentry hlast hother, ?_⟩
      rwa [nodesBefore_behind hproper hentry hlast hother, ← Set.union_assoc]

end Runs

/-- **Reading a proper run** finds all that its entries lead to, or stops at the first entry that is
too deep behind those before it. -/
theorem endsWith_readRun {table : Array Nat} {active : List Nat} {depth : Nat}
    {descend : Nat → Bool → Reading → Except ImageFault (Counted × Reading)} {index : Nat}
    (hproper : IsProper table index)
    (hdescend : ∀ entry, InRun table index entry → ∀ s : Reading, s.active = active →
      IsClosed table s.nodes → EndsWith s (nodesBelow table (targetOf entry))
        (IsTooDeep table s.nodes depth (targetOf entry))
        (descend (runOf entry) (isTerminal entry) s))
    (last : Option UInt8)
    (hletter : ∀ entry, table[index]? = some entry → ∀ k ∈ last, k < letterOf entry)
    (s : Reading) (hactive : s.active = active) (hclosed : IsClosed table s.nodes) :
    EndsWith s (nodesOfRun table index)
      (∃ entry, InRun table index entry ∧
        IsTooDeep table (s.nodes ∪ nodesBefore table index entry) depth (targetOf entry))
      (readRun table descend (table.size - index) index last s) := by
  induction hproper generalizing last s with
  | @last index entry hentry hupper hlast =>
    obtain ⟨hindex, -⟩ := Array.getElem?_eq_some_iff.mp hentry
    have hleft : table.size - index = table.size - (index + 1) + 1 := by omega
    have hproper : IsProper table index := .last hentry hupper hlast
    have hread := hdescend entry (.first hentry) s hactive hclosed
    rw [hleft, nodesOfRun_of_last hentry hlast]
    simp only [inRun_of_last hentry hlast, exists_eq_left, nodesBefore_first hproper hentry,
      Set.union_empty]
    cases hresult : descend (runOf entry) (isTerminal entry) s with
    | error fault =>
      rw [hresult] at hread
      rw [readRun_of_error hentry hupper (hletter entry hentry) hresult]
      exact hread
    | ok result =>
      rw [hresult] at hread
      rw [readRun_of_last hentry hupper (hletter entry hentry) hlast hresult]
      exact hread
  | @more index entry next hentry hupper hlast hnext hless hrest ih =>
    obtain ⟨hindex, -⟩ := Array.getElem?_eq_some_iff.mp hentry
    have hleft : table.size - index = table.size - (index + 1) + 1 := by omega
    have hproper : IsProper table index := .more hentry hupper hlast hnext hless hrest
    have hread := hdescend entry (.first hentry) s hactive hclosed
    rw [hleft, nodesOfRun_of_more hentry hlast]
    simp only [exists_isTooDeep_of_more hentry hproper hlast]
    cases hresult : descend (runOf entry) (isTerminal entry) s with
    | error fault =>
      rw [hresult] at hread
      rw [readRun_of_error hentry hupper (hletter entry hentry) hresult]
      exact ⟨hread.1, .inl hread.2⟩
    | ok result =>
      obtain ⟨target, s₁⟩ := result
      rw [hresult] at hread
      obtain ⟨hactive₁, hnodes₁, hshallow⟩ := hread
      have hothers := ih (fun entry' h' => hdescend entry' (.behind hentry hlast h'))
        (some (letterOf entry)) (letter_lt_of_next hnext hless) s₁ (hactive₁.trans hactive)
        (hnodes₁ ▸ hclosed.union_nodesBelow _)
      rw [hnodes₁] at hothers
      cases hresult' : readRun table descend (table.size - (index + 1)) (index + 1)
          (some (letterOf entry)) s₁ with
      | error fault =>
        rw [hresult'] at hothers
        rw [readRun_of_more_error hentry hupper (hletter entry hentry) hlast hresult hresult']
        exact ⟨hothers.1, .inr hothers.2⟩
      | ok result' =>
        obtain ⟨⟨others, words⟩, s'⟩ := result'
        rw [hresult'] at hothers
        obtain ⟨hactive', hnodes', hshallow'⟩ := hothers
        rw [readRun_of_more hentry hupper (hletter entry hentry) hlast hresult hresult']
        refine ⟨hactive'.trans hactive₁, ?_, not_or.mpr ⟨hshallow, hshallow'⟩⟩
        rw [hnodes', hnodes₁, Set.union_assoc]

/-- A node that is known **is not read again**. -/
theorem endsWith_of_known {table : Array Nat} {depth run : Nat} {terminal : Bool} {s : Reading}
    {c : Counted} (hclosed : IsClosed table s.nodes)
    (hknown : s.known[Reading.key run terminal]? = some c) :
    EndsWith s (nodesBelow table (run, terminal)) (IsTooDeep table s.nodes depth (run, terminal))
      (.ok (c, s)) := by
  have hnode : (run, terminal) ∈ s.nodes := ⟨c, hknown⟩
  exact ⟨rfl, (Set.union_eq_left.mpr (hclosed _ hnode)).symm,
    not_isTooDeep_of_mem hclosed hnode depth⟩

/-- **Reading a node** finds all that is below it, or stops since a node that is not known is too
deep. -/
theorem endsWith_readNode {table : Array Nat} (depth : Nat) {run : Nat}
    (hform : IsWellFormed table run) {s : Reading}
    (hactive : ∀ r ∈ s.active, ¬ Reaches table run r) (hclosed : IsClosed table s.nodes)
    (terminal : Bool) :
    EndsWith s (nodesBelow table (run, terminal)) (IsTooDeep table s.nodes depth (run, terminal))
      (readNode table depth run terminal s) := by
  induction depth generalizing run terminal s with
  | zero =>
    unfold readNode
    split
    · next c hknown => exact endsWith_of_known hclosed hknown
    · next hnone =>
      have hnew : (run, terminal) ∉ s.nodes := by
        rintro ⟨c, hc⟩
        rw [hnone] at hc
        cases hc
      exact ⟨rfl, [], ⟨isFirst_nil table (run, terminal), hnew⟩, Nat.le_refl 0⟩
  | succ depth ih =>
    unfold readNode
    split
    · next c hknown => exact endsWith_of_known hclosed hknown
    simp only
    by_cases hrun : run = 0
    · subst hrun
      rw [if_pos rfl]
      refine ⟨List.erase_of_not_mem fun hzero => hactive 0 hzero .refl, ?_, ?_⟩
      · rw [nodesBelow_of_run_eq_zero rfl, Set.union_singleton]
        exact Reading.nodes_finish ..
      · rintro ⟨path, hnew, hlength⟩
        cases hnew.1.isPath with
        | nil => exact absurd hlength (Nat.not_succ_le_zero depth)
        | cons hedge _ => exact hedge.1 rfl
    have hself : run ∉ s.active := fun hmem => hactive run hmem .refl
    rw [if_neg hrun, if_neg (by simpa using hself)]
    -- The run of a target leads back neither to this run nor to one being read before it.
    have htarget (entry : Nat) (hentry : InRun table run entry) (s₁ : Reading)
        (hs₁ : s₁.active = run :: s.active) (hclosed₁ : IsClosed table s₁.nodes) :
        EndsWith s₁ (nodesBelow table (targetOf entry))
          (IsTooDeep table s₁.nodes depth (targetOf entry))
          (readNode table depth (runOf entry) (isTerminal entry) s₁) := by
      have hleads : Leads table run (runOf entry) := ⟨entry, ⟨hrun, hentry⟩, rfl⟩
      refine ih (hform.of_reaches (.single hleads)) (fun r hr hreaches => ?_) hclosed₁ _
      rw [hs₁] at hr
      rcases List.mem_cons.mp hr with rfl | hr
      · exact hform.acyclic r .refl (.head' hleads hreaches)
      · exact hactive r hr (.head hleads hreaches)
    have hrest := endsWith_readRun (hform.proper run .refl hrun) htarget none (by simp)
      { s with active := run :: s.active } rfl hclosed
    have hdeep : IsTooDeep table s.nodes (depth + 1) (run, terminal) ↔
        ∃ entry, InRun table run entry ∧
          IsTooDeep table (s.nodes ∪ nodesBefore table run entry) depth (targetOf entry) :=
      isTooDeep_succ_iff hform hrun
    cases hresult : readRun table (readNode table depth) (table.size - run) run none
        { s with active := run :: s.active } with
    | error fault =>
      rw [hresult] at hrest
      exact ⟨hrest.1, hdeep.mpr hrest.2⟩
    | ok result =>
      obtain ⟨⟨edges, words⟩, s'⟩ := result
      rw [hresult] at hrest
      obtain ⟨hactive', hnodes', hshallow⟩ := hrest
      refine ⟨?_, ?_, fun htoo => hshallow (hdeep.mp htoo)⟩
      · show s'.active.erase run = s.active
        rw [hactive', List.erase_cons_head]
      · refine (Reading.nodes_finish ..).trans ?_
        rw [hnodes']
        ext x
        rw [Set.mem_insert_iff, Set.mem_union, Set.mem_union, mem_nodesBelow_iff hrun]
        exact or_left_comm

/-! ## §4 Images -/

/-- **A well-formed image is read, or is too deep** along the first path to one of its nodes. -/
theorem decode_of_first_paths {bytes : List UInt8} {table : Array Nat}
    (himage : IsImage bytes table) (hform : IsWellFormed table (rootRun table)) :
    ((∃ g, decode bytes = .ok g) ∧
      ∀ path, IsFirst table (rootRun table, false) path → path.length ≤ maxDepth) ∨
    (decode bytes = .error .tooDeep ∧
      ∃ path, IsFirst table (rootRun table, false) path ∧ maxDepth < path.length) := by
  -- Nothing is known before the first run, so each node is read where it is first met.
  have hnone : Reading.start.nodes = ∅ := by
    ext node
    simp [Reading.start, Reading.nodes]
  have hread := endsWith_readNode (maxDepth + 1) hform (s := Reading.start)
    (List.forall_mem_nil _) (hnone ▸ fun _ h => absurd h (Set.notMem_empty _)) false
  rw [hnone] at hread
  unfold decode
  rw [entriesOf_eq_ok_iff.mpr himage]
  simp only
  rw [← rootRun]
  cases hresult : readNode table (maxDepth + 1) (rootRun table) false Reading.start with
  | error fault =>
    rw [hresult] at hread
    obtain ⟨rfl, path, hnew, hlong⟩ := hread
    exact .inr ⟨rfl, path, hnew.1, hlong⟩
  | ok result =>
    rw [hresult] at hread
    refine .inl ⟨⟨_, rfl⟩, fun path hfirst => ?_⟩
    -- A first path that is too long would have been met while reading.
    by_contra hlong
    exact hread.2.2 ⟨path, ⟨hfirst, Set.notMem_empty _⟩, Nat.lt_of_not_le hlong⟩

/-- The mark of a word at the end of a path is that of the last entry. -/
theorem terminal_pathEnd (node : NodeKey) (path : List Nat) :
    (pathEnd node path).2 = (path.getLast?.map isTerminal).getD node.2 := by
  induction path generalizing node with
  | nil => rfl
  | cons entry path ih =>
    rw [pathEnd, ih, List.getLast?_cons]
    cases path.getLast? <;> rfl

/-- **A word is spelled** by a path from the root to a node at which a word ends. -/
theorem spells_iff_pathEnd {table : Array Nat} {w : Word} :
    Spells table (rootRun table) w ↔ ∃ path, IsPath table (rootRun table) path ∧
      path.map letterOf = w ∧ (pathEnd (rootRun table, false) path).2 = true := by
  have hterminal : ∀ path : List Nat, (pathEnd (rootRun table, false) path).2 = true ↔
      path.getLast?.any isTerminal = true := by
    intro path
    rw [terminal_pathEnd]
    cases path.getLast? <;> simp
  simp only [hterminal, Spells]

/-- Of the words with a property, an ascending list has **a first one**. -/
theorem exists_first_word {words : List Word} (h : Word.Ascending words) {p : Word → Prop}
    (hp : ∃ w ∈ words, p w) :
    ∃ w ∈ words, p w ∧ ∀ v ∈ words, p v → Word.order v w ≠ .lt := by
  induction words with
  | nil => simp at hp
  | cons first words ih =>
    obtain ⟨hbefore, hrest⟩ := List.pairwise_cons.mp h
    -- The words ascend, so the first one with the property comes before all others.
    by_cases hfirst : p first
    · refine ⟨first, List.mem_cons_self .., hfirst, fun v hv _ hless => ?_⟩
      rcases List.mem_cons.mp hv with rfl | hv
      · have hself : Word.order v v = .eq := Std.ReflCmp.compare_self
        rw [hself] at hless
        cases hless
      · have hgt := Std.OrientedCmp.gt_of_lt (hbefore v hv)
        rw [hless] at hgt
        cases hgt
    · obtain ⟨w, hw, hpw⟩ := hp
      have hne : w ≠ first := fun heq => hfirst (heq ▸ hpw)
      obtain ⟨w', hw', hpw', hleast⟩ := ih hrest
        ⟨w, (List.mem_cons.mp hw).resolve_left hne, hpw⟩
      refine ⟨w', List.mem_cons_of_mem _ hw', hpw', fun v hv hpv => ?_⟩
      rcases List.mem_cons.mp hv with rfl | hv
      · exact absurd hpv hfirst
      · exact hleast v hv hpv

/-- **Reading is limited by the first paths, for every byte string.** If a graph is read, the byte
string is the image of a well-formed table in which the first path to each node has at most
`maxDepth` entries. A word of the graph that is longer than this ends at a node at which a smaller
word ends that is short enough, and along which the node was met. And the image of a well-formed
table is refused as too deep exactly if the first path to one of its nodes is too long; otherwise it
is read. -/
theorem decode_depth (bytes : List UInt8) :
    (∀ g, decode bytes = .ok g → ∃ table, IsImage bytes table ∧
      IsWellFormed table (rootRun table) ∧
      (∀ path, IsFirst table (rootRun table, false) path → path.length ≤ maxDepth) ∧
      ∀ w ∈ g.words, maxDepth < w.length → ∃ path first,
        IsPath table (rootRun table) path ∧ path.map letterOf = w ∧
        IsFirst table (rootRun table, false) first ∧
        pathEnd (rootRun table, false) first = pathEnd (rootRun table, false) path ∧
        first.map letterOf ∈ g.words ∧ Word.order (first.map letterOf) w = .lt ∧
        first.length ≤ maxDepth) ∧
    (∀ table, IsImage bytes table → IsWellFormed table (rootRun table) →
      (decode bytes = .error .tooDeep ↔
        ∃ path, IsFirst table (rootRun table, false) path ∧ maxDepth < path.length) ∧
      ((∃ g, decode bytes = .ok g) ↔
        ∀ path, IsFirst table (rootRun table, false) path → path.length ≤ maxDepth)) := by
  constructor
  · intro g hread
    obtain ⟨table, named, himage, hnaming, -, hunfolds⟩ := unfolds_of_decode hread
    have hform := hunfolds.isWellFormed
    have hwords : ∀ w, w ∈ g.words ↔ Spells table (rootRun table) w :=
      hunfolds.mem_words_iff hnaming.terminal_eq
    have hascending := (describes_of_decode hread).sorted.ascending_words
    have hshort : ∀ path, IsFirst table (rootRun table, false) path → path.length ≤ maxDepth := by
      rcases decode_of_first_paths himage hform with ⟨-, hshort⟩ | ⟨hdeep, -⟩
      · exact hshort
      · rw [hread] at hdeep
        cases hdeep
    refine ⟨table, himage, hform, hshort, fun w hw hlong => ?_⟩
    obtain ⟨path, hpath, hletters, hterminal⟩ := spells_iff_pathEnd.mp ((hwords w).mp hw)
    -- The first word that ends where `w` ends is spelled by a first path.
    obtain ⟨v, hv, ⟨first, hfirst, rfl, hend⟩, hleast⟩ := exists_first_word hascending
      (p := fun v => ∃ first, IsPath table (rootRun table) first ∧ first.map letterOf = v ∧
        pathEnd (rootRun table, false) first = pathEnd (rootRun table, false) path)
      ⟨w, hw, path, hpath, hletters, rfl⟩
    have hisFirst : IsFirst table (rootRun table, false) first := by
      refine ⟨hfirst, fun other hother hsame => ?_⟩
      have hsame' := hsame.trans hend
      refine hleast _ ?_ ⟨other, hother, rfl, hsame'⟩
      exact (hwords _).mpr (spells_iff_pathEnd.mpr ⟨other, hother, rfl, hsame' ▸ hterminal⟩)
    have hlength := hshort first hisFirst
    refine ⟨path, first, hpath, hletters, hisFirst, hend, hv, ?_, hlength⟩
    have hnot : Word.order w (first.map letterOf) ≠ .lt :=
      hleast w hw ⟨path, hpath, hletters, rfl⟩
    cases horder : Word.order (first.map letterOf) w with
    | lt => rfl
    | eq =>
      have heq := congrArg List.length (Std.LawfulEqCmp.eq_of_compare horder)
      rw [List.length_map] at heq
      omega
    | gt => exact absurd (Std.OrientedCmp.lt_of_gt horder) hnot
  · intro table himage hform
    obtain ⟨⟨g, hread⟩, hshort⟩ | ⟨hdeep, path, hpath, hlong⟩ := decode_of_first_paths himage hform
    · rw [hread]
      refine ⟨⟨nofun, ?_⟩, ⟨fun _ => hshort, fun _ => ⟨g, rfl⟩⟩⟩
      rintro ⟨path, hpath, hlong⟩
      exact absurd (hshort path hpath) (Nat.not_le_of_lt hlong)
    · rw [hdeep]
      refine ⟨⟨fun _ => ⟨path, hpath, hlong⟩, fun _ => rfl⟩, ⟨nofun, fun hshort => ?_⟩⟩
      exact absurd (hshort path hpath) (Nat.not_le_of_lt hlong)

/-- An image with two entries at the root and 64 runs of one entry, one behind the other, so that a
path from run 3 on has 64 entries. -/
def forkedImage (first second : Nat) (letter : UInt8) : List UInt8 :=
  let chain := (List.range 63).map fun i => entryOf letter false true (i + 4)
  let table := 0x400 :: first :: second :: chain ++ [entryOf letter true true 0]
  magic ++ wordBytes table.length ++ table.flatMap wordBytes

/-- The word `A` and, behind it, 65 times the letter `B`. -/
def imageOfLongSecond : List UInt8 :=
  forkedImage (entryOf 0x41 true false 0) (entryOf 0x42 false true 3) 0x42

/-- 65 times the letter `A` and, behind it, the word `B`. -/
def imageOfLongFirst : List UInt8 :=
  forkedImage (entryOf 0x41 false false 3) (entryOf 0x42 true true 0) 0x41

/-- **The long word is read if a short one comes first**, and refused if it comes first itself. -/
theorem decode_of_long_words :
    (decode imageOfLongSecond).toOption.map (·.words) =
        some [[0x41], List.replicate 65 0x42] ∧
      decode imageOfLongFirst = .error .tooDeep ∧
      ¬ ∀ bytes g, decode bytes = .ok g → ∀ w ∈ g.words, w.length ≤ maxDepth := by
  have hsecond : (decode imageOfLongSecond).toOption.map (·.words) =
      some [[0x41], List.replicate 65 0x42] := by decide +kernel
  have hfirst : decode imageOfLongFirst = .error .tooDeep := by
    -- The fault is compared as a value, since graphs have no decidable equality.
    have hfault : (match decode imageOfLongFirst with
        | .error fault => fault == .tooDeep
        | .ok _ => false) = true := by decide +kernel
    split at hfault
    · next fault hread => rw [hread, eq_of_beq hfault]
    · cases hfault
  refine ⟨hsecond, hfirst, fun hlimit => ?_⟩
  cases hread : decode imageOfLongSecond with
  | error fault =>
    rw [hread] at hsecond
    cases hsecond
  | ok g =>
    rw [hread] at hsecond
    have hwords : g.words = [[0x41], List.replicate 65 0x42] := Option.some.inj hsecond
    have hlong := hlimit _ g hread (List.replicate 65 0x42) (by simp [hwords])
    exact absurd hlong (by decide)

end Image

end WordStudy
