import WordStudy.Graph.Decode
import WordStudy.Proofs.Graph.Sharing
import WordStudy.Proofs.Word.Capitals

/-!
# The graph of an image

While an image is read, every node made has its place in the order of making as its number, is
frozen, and has edges to nodes made before. So the graph that is read shares its nodes soundly.
It is sorted and spelled in upper-case letters, since entries that are not are refused, and the
number of words that is added up over shared nodes is the number of words spelled, capped.
-/

namespace WordStudy

open Text

namespace Edges

/-- All words along the edges have upper-case letters only. -/
def InCapitals (e : Edges) : Prop := ∀ w ∈ e.words, Word.InCapitals w

/-- The number of words along an edge and along those behind it. -/
theorem length_words_edge (l : UInt8) (m : Mark) (below others : Edges) :
    (edge l m below others).words.length =
      below.words.length + m.terminal.toNat + others.words.length := by
  simp only [words, List.length_append]
  cases m.terminal <;> simp

/-- An edge with an upper-case letter, in front of words in upper case and leading to such. -/
theorem InCapitals.edge {l : UInt8} {m : Mark} {below others : Edges} (hl : isUpper l = true)
    (hbelow : below.InCapitals) (hothers : others.InCapitals) :
    (Edges.edge l m below others).InCapitals := by
  intro w hw
  rcases mem_words_edge.mp hw with ⟨_, rfl⟩ | ⟨v, hv, rfl⟩ | hw
  · simpa [Word.InCapitals] using hl
  · simpa [Word.InCapitals, hl] using hbelow v hv
  · exact hothers w hw

end Edges

namespace Image

/-! ## §1 What holds while an image is read -/

/-- The count is that of the words that end at the node or below it, capped. -/
def Counted.IsExact (c : Counted) : Prop :=
  c.words = min (c.node.edges.words.length + c.node.mark.terminal.toNat) maxWord64

/-- **What holds when `made` are the nodes read**, the first one first. -/
structure Reading.Sound (s : Reading) (made : List Node) : Prop where
  size_eq : made.length = s.size
  /-- A node has its place as its number. -/
  number_eq : ∀ (i : Nat) (n : Node), made[i]? = some n → n.mark.number = i
  frozen : ∀ n ∈ made, n.mark.frozen = true
  targets : ∀ n ∈ made, ∀ c ∈ n.edges.targets, c ∈ made
  sorted : ∀ n ∈ made, n.edges.Sorted
  inCapitals : ∀ n ∈ made, n.edges.InCapitals
  /-- What is known of a run was made for it. -/
  known : ∀ (run : Nat) (terminal : Bool) (c : Counted),
    s.known[Reading.key run terminal]? = some c →
      c.node ∈ made ∧ c.node.mark.terminal = terminal ∧ c.IsExact

/-- The answer to a read: more nodes were made, one of them is the answer. -/
structure ReadsNode (made : List Node) (terminal : Bool) (c : Counted) (s' : Reading) : Prop where
  made_more : ∃ more, s'.Sound (made ++ more) ∧ c.node ∈ made ++ more
  terminal_eq : c.node.mark.terminal = terminal
  isExact : c.IsExact

/-- The answer to a read of a run: more nodes were made, and the edges lead to nodes made. -/
structure ReadsRun (made : List Node) (last : Option UInt8) (edges : Edges) (words : Nat)
    (s' : Reading) : Prop where
  made_more : ∃ more, s'.Sound (made ++ more) ∧ ∀ c ∈ edges.targets, c ∈ made ++ more
  sorted : edges.Sorted
  inCapitals : edges.InCapitals
  letters_gt : ∀ l ∈ edges.letters, ∀ k ∈ last, k < l
  words_eq : words = min edges.words.length maxWord64

namespace Reading

theorem sound_start : start.Sound [] := by
  constructor <;> simp [start]

theorem key_inj {run run' : Nat} {t t' : Bool} (h : key run t = key run' t') :
    run = run' ∧ t = t' := by
  cases t <;> cases t' <;> simp [key] at h ⊢ <;> omega

/-- Which runs are being read does not matter. -/
theorem Sound.withActive {s : Reading} {made : List Node} (h : s.Sound made) (active : List Nat) :
    Sound { s with active } made :=
  ⟨h.size_eq, h.number_eq, h.frozen, h.targets, h.sorted, h.inCapitals, h.known⟩

/-- A number is on one of the nodes made only. -/
theorem Sound.eq_of_number_eq {s : Reading} {made : List Node} (h : s.Sound made) {n m : Node}
    (hn : n ∈ made) (hm : m ∈ made) (heq : n.mark.number = m.mark.number) : n = m := by
  obtain ⟨i, hi⟩ := List.getElem?_of_mem hn
  obtain ⟨j, hj⟩ := List.getElem?_of_mem hm
  have hij : i = j := by rw [← h.number_eq i n hi, ← h.number_eq j m hj, heq]
  rw [hij, hj] at hi
  exact (Option.some.inj hi).symm

/-- **A node is finished**: it is the next one made. -/
theorem Sound.finish {s : Reading} {made : List Node} (h : s.Sound made) (run : Nat)
    (terminal : Bool) {edges : Edges} (hedges : ∀ c ∈ edges.targets, c ∈ made)
    (hsorted : edges.Sorted) (hcapitals : edges.InCapitals) {below : Nat}
    (hbelow : below = min edges.words.length maxWord64) :
    ReadsNode made terminal (s.finish run terminal edges below).1
      (s.finish run terminal edges below).2 := by
  have hexact : (s.finish run terminal edges below).1.IsExact := by
    simp only [Reading.finish, Counted.IsExact, hbelow]
    omega
  refine ⟨⟨[(s.finish run terminal edges below).1.node], ?_, by simp⟩, rfl, hexact⟩
  have hnode : (s.finish run terminal edges below).1.node = ⟨⟨s.size, terminal, true⟩, edges⟩ := rfl
  rw [hnode]
  -- What holds of the nodes made before and of the new one holds of all of them.
  have hall {p : Node → Prop} (hold : ∀ n ∈ made, p n)
      (hnew : p ⟨⟨s.size, terminal, true⟩, edges⟩) :
      ∀ n ∈ made ++ [⟨⟨s.size, terminal, true⟩, edges⟩], p n := by
    intro n hn
    rcases List.mem_append.mp hn with hn | hn
    · exact hold n hn
    · exact List.mem_singleton.mp hn ▸ hnew
  constructor
  · simp [Reading.finish, h.size_eq]
  · intro i n hi
    rw [List.getElem?_append] at hi
    split at hi
    · exact h.number_eq i n hi
    · next hge =>
      -- The new node has the number of nodes made before it.
      have hlen := h.size_eq
      rw [List.getElem?_singleton] at hi
      split at hi
      · next hzero =>
        cases hi
        show s.size = i
        omega
      · cases hi
  · exact hall h.frozen rfl
  · exact hall (fun n hn c hc => List.mem_append_left _ (h.targets n hn c hc))
      fun c hc => List.mem_append_left _ (hedges c hc)
  · exact hall h.sorted hsorted
  · exact hall h.inCapitals hcapitals
  · intro run' terminal' c hc
    simp only [Reading.finish, Std.TreeMap.getElem?_insert] at hc
    split at hc
    · next heq =>
      obtain ⟨-, rfl⟩ := key_inj (Std.compare_eq_iff_eq.mp heq)
      cases hc
      exact ⟨by simp, rfl, hexact⟩
    · obtain ⟨hmem, hrest⟩ := h.known run' terminal' c hc
      exact ⟨List.mem_append_left _ hmem, hrest⟩

end Reading

/-! ## §2 Reading runs and nodes -/

/-- **A run that is read** begins with an entry that is in order and whose node is read. It ends
there, or goes on with greater letters. -/
theorem readRun_eq_ok {table : Array Nat}
    {descend : Nat → Bool → Reading → Except ImageFault (Counted × Reading)} {left index : Nat}
    {last : Option UInt8} {s s' : Reading} {edges : Edges} {words : Nat}
    (h : readRun table descend (left + 1) index last s = .ok ((edges, words), s')) :
    ∃ entry target s₁, table[index]? = some entry ∧ isUpper (letterOf entry) = true ∧
      (∀ k ∈ last, k < letterOf entry) ∧
      descend (runOf entry) (isTerminal entry) s = .ok (target, s₁) ∧
      ((isLast entry = true ∧ words = target.words ∧ s' = s₁ ∧
          edges = .edge (letterOf entry) target.node.mark target.node.edges .nil) ∨
        (isLast entry = false ∧ ∃ others more,
          readRun table descend left (index + 1) (some (letterOf entry)) s₁ =
            .ok ((others, more), s') ∧
          words = min (target.words + more) maxWord64 ∧
          edges = .edge (letterOf entry) target.node.mark target.node.edges others)) := by
  -- The tests are undone in the order in which they are made.
  simp only [readRun] at h
  split at h
  · cases h
  next entry hentry =>
  split at h
  · cases h
  next hletter =>
  simp only [Bool.or_eq_true, Bool.not_eq_true', not_or, Bool.not_eq_false] at hletter
  obtain ⟨hupper, hascending⟩ := hletter
  have hlast : ∀ k ∈ last, k < letterOf entry := by
    intro k hk
    rw [Option.mem_def] at hk
    subst hk
    simpa using hascending
  split at h
  · cases h
  next target s₁ htarget =>
  refine ⟨entry, target, s₁, hentry, hupper, hlast, htarget, ?_⟩
  split at h
  · next hend =>
    cases h
    exact .inl ⟨hend, rfl, rfl, rfl⟩
  · next hmore =>
    split at h
    · cases h
    next others more s₂ hothers =>
    cases h
    exact .inr ⟨by simpa using hmore, others, more, hothers, rfl, rfl⟩

/-- **A node that is read** was known, or it is finished with no edges, or with those of its run. -/
theorem readNode_eq_ok {table : Array Nat} {depth run : Nat} {terminal : Bool} {s s' : Reading}
    {c : Counted} (h : readNode table depth run terminal s = .ok (c, s')) :
    (s.known[Reading.key run terminal]? = some c ∧ s' = s) ∨
      (s.known[Reading.key run terminal]? = none ∧ run = 0 ∧
        (c, s') = s.finish run terminal .nil 0) ∨
      (s.known[Reading.key run terminal]? = none ∧ run ≠ 0 ∧ run ∉ s.active ∧
        ∃ below edges words s₁, depth = below + 1 ∧
          readRun table (readNode table below) (table.size - run) run none
            { s with active := run :: s.active } = .ok ((edges, words), s₁) ∧
          (c, s') = s₁.finish run terminal edges words) := by
  unfold readNode at h
  split at h
  · next counted hknown =>
    cases h
    exact .inl ⟨hknown, rfl⟩
  next hnew =>
  right
  cases depth with
  | zero => cases h
  | succ below =>
    simp only at h
    -- A node without a run is made at once; any other one is read, unless it is being read.
    split at h
    · next hzero =>
      exact .inl ⟨hnew, hzero, (Except.ok.inj h).symm⟩
    next hrun =>
    split at h
    · cases h
    next hactive =>
    split at h
    · cases h
    next edges words s₁ hread =>
    exact .inr ⟨hnew, hrun, by simpa using hactive, below, edges, words, s₁, rfl, hread,
      (Except.ok.inj h).symm⟩

/-- **Reading a run** makes edges to nodes made, if reading a node does so. -/
theorem readRun_spec {table : Array Nat}
    {descend : Nat → Bool → Reading → Except ImageFault (Counted × Reading)}
    (hdescend : ∀ run terminal s c s' made, s.Sound made →
      descend run terminal s = .ok (c, s') → ReadsNode made terminal c s')
    (left index : Nat) (last : Option UInt8) {s s' : Reading} {made : List Node}
    {edges : Edges} {words : Nat} (h : s.Sound made)
    (hread : readRun table descend left index last s = .ok ((edges, words), s')) :
    ReadsRun made last edges words s' := by
  induction left generalizing index last s s' made edges words with
  | zero => cases hread
  | succ left ih =>
    obtain ⟨entry, target, s₁, -, hupper, hlast, htarget, hrest⟩ := readRun_eq_ok hread
    obtain ⟨⟨more, hsound, hmem⟩, -, hexact⟩ := hdescend _ _ _ _ _ _ h htarget
    have htargetSorted := hsound.sorted _ hmem
    have htargetCapitals := hsound.inCapitals _ hmem
    have hcount := hexact
    rw [Counted.IsExact] at hcount
    rcases hrest with ⟨-, rfl, rfl, rfl⟩ | ⟨-, others, words', hothers, rfl, rfl⟩
    · -- The last entry of the run.
      refine ⟨⟨more, hsound, by simpa using hmem⟩, ⟨htargetSorted, by simp, trivial⟩,
        htargetCapitals.edge hupper (by simp [Edges.InCapitals, Edges.words]), ?_, ?_⟩
      · simpa using hlast
      · rw [hcount, Edges.length_words_edge]
        rfl
    · obtain ⟨⟨more', hsound', hmem'⟩, hsorted, hcapitals, hgreater, hwords⟩ :=
        ih _ _ hsound hothers
      rw [List.append_assoc] at hsound' hmem'
      -- The entries behind this one have greater letters, for it is the last before them.
      have hfirst : ∀ k ∈ others.letters, letterOf entry < k := fun k hk =>
        hgreater k hk _ rfl
      refine ⟨⟨more ++ more', hsound', ?_⟩, ⟨htargetSorted, hfirst, hsorted⟩,
        htargetCapitals.edge hupper hcapitals, ?_, ?_⟩
      · intro c hc
        rcases List.mem_cons.mp hc with rfl | hc
        · rw [← List.append_assoc]
          exact List.mem_append_left _ hmem
        · exact hmem' c hc
      · intro l hl k hk
        rcases List.mem_cons.mp hl with rfl | hl
        · exact hlast k hk
        · exact UInt8.lt_trans (hlast k hk) (hfirst l hl)
      · rw [hcount, hwords, Edges.length_words_edge]
        omega

/-- **Reading a node** gives one of the nodes made. -/
theorem readNode_spec {table : Array Nat} (depth run : Nat) (terminal : Bool) {s s' : Reading}
    {made : List Node} {c : Counted} (h : s.Sound made)
    (hread : readNode table depth run terminal s = .ok (c, s')) :
    ReadsNode made terminal c s' := by
  -- The depth goes down with each node, and the nodes made so far are sound all along.
  induction depth using Nat.strongRecOn generalizing run terminal s s' made c with
  | ind depth ih =>
    rcases readNode_eq_ok hread with
      ⟨hknown, rfl⟩ | ⟨-, -, hfinish⟩ | ⟨-, -, -, below, edges, words, s₁, rfl, hrun, hfinish⟩
    · obtain ⟨hmem, hterminal, hexact⟩ := h.known run terminal c hknown
      exact ⟨⟨[], by simpa using h, by simpa using hmem⟩, hterminal, hexact⟩
    · -- A node without a run has no edges.
      cases hfinish
      have hnone : Edges.nil.InCapitals := by simp [Edges.InCapitals, Edges.words]
      exact h.finish run terminal (by simp) (show Edges.nil.Sorted from trivial) hnone rfl
    · cases hfinish
      obtain ⟨⟨more, hsound, htargets⟩, hsorted, hcapitals, _, hwords⟩ :=
        readRun_spec (fun _ _ _ _ _ _ hs hd => ih below (Nat.lt_succ_self below) _ _ hs hd)
          _ _ none (h.withActive _) hrun
      obtain ⟨⟨more', hsound', hmem⟩, hterminal, hexact⟩ :=
        hsound.finish run terminal htargets hsorted hcapitals hwords
      rw [List.append_assoc] at hsound' hmem
      exact ⟨⟨more ++ more', hsound', hmem⟩, hterminal, hexact⟩

/-! ## §3 The graph -/

/-- **The graph of an image** is sorted, shares its nodes soundly and has words in upper case
only, and its word count is the number of them, capped. -/
structure Describes (g : WordGraph) : Prop where
  sorted : g.root.edges.Sorted
  sharesSoundly : SharesSoundly g.nodes g.size
  inCapitals : ∀ w ∈ g.words, w.InCapitals
  wordCount_eq : g.wordCount = min g.words.length maxWord64

theorem describes_of_decode {bytes : List UInt8} {g : WordGraph} (h : decode bytes = .ok g) :
    Describes g := by
  unfold decode at h
  split at h
  · cases h
  split at h
  · cases h
  next root s hroot =>
  cases h
  obtain ⟨⟨made, hsound, hmem⟩, hterminal, hexact⟩ :=
    readNode_spec _ _ _ Reading.sound_start hroot
  rw [List.nil_append] at hsound hmem
  -- Every node made has its place in the list as its number.
  have hbound : ∀ n ∈ made, n.mark.number < s.size := by
    intro n hn
    obtain ⟨i, hi⟩ := List.getElem?_of_mem hn
    rw [hsound.number_eq i n hi, ← hsound.size_eq]
    exact (List.getElem?_eq_some_iff.mp hi).1
  refine ⟨hsound.sorted _ hmem, ?_, hsound.inCapitals _ hmem, ?_⟩
  · exact SharesSoundly.of_frozen (p := (· ∈ made)) hsound.targets hsound.frozen hbound
      (fun _ _ hn hm heq => hsound.eq_of_number_eq hn hm heq) hmem
  · rw [Counted.IsExact, hterminal] at hexact
    exact hexact

end Image

end WordStudy
