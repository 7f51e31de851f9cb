import WordStudy.Proofs.Graph.RoundTrip

/-!
# The path that is read first

Reading an image begins with the first entries of the runs, one below the other. Nothing is known on
the way down, so that a path of first entries that is too long is **always refused**, while another
one may be cut short by a node that was read before. The path of first entries is at least as long
as the first word.
-/

namespace WordStudy

open Text

namespace Edges

/-- The length of the path along the first edges. -/
def firstDepth : Edges → Nat
  | nil => 0
  | edge _ _ below _ => below.firstDepth + 1

/-- **The first word** lies on the path along the first edges. -/
theorem Live.length_le_firstDepth {e : Edges} (h : e.Live) {w : Word}
    (hw : e.words.head? = some w) : w.length ≤ e.firstDepth := by
  induction e generalizing w with
  | nil => cases hw
  | edge l m below others ihBelow _ =>
    obtain ⟨hmark, hbelow, -⟩ := h
    by_cases hend : m.terminal = true
    · -- The word ends at the first edge.
      simp only [words, if_pos hend, List.cons_append, List.head?_cons, Option.some.injEq] at hw
      subst hw
      exact Nat.succ_le_succ (Nat.zero_le _)
    · -- It goes on below the first edge, since that is no dead end.
      have hmore : below ≠ nil := hmark.resolve_left hend
      obtain ⟨u, hu⟩ := hbelow.exists_word hmore
      obtain ⟨v, rest, hwords⟩ := List.exists_cons_of_ne_nil (List.ne_nil_of_mem hu)
      have hv : below.words.head? = some v := by rw [hwords, List.head?_cons]
      simp only [words, if_neg hend, hwords, List.map_cons, List.cons_append, List.head?_cons,
        Option.some.injEq] at hw
      subst hw
      exact Nat.succ_le_succ (ihBelow hbelow hv)

end Edges

namespace Image

/-- **A path of first entries**, by its length. -/
inductive FirstPath (table : Array Nat) : Nat → Nat → Prop
  | nil {run : Nat} : FirstPath table run 0
  | cons {run entry length : Nat} (hrun : run ≠ 0) (hentry : table[run]? = some entry)
    (hrest : FirstPath table (runOf entry) length) : FirstPath table run (length + 1)

variable {table : Array Nat}

/-- What unfolds has a path as long as the one along the first edges, and shorter ones. -/
theorem Unfolds.firstPath {named : Nat → Bool → Mark → Prop} {run : Nat} {e : Edges}
    (h : Unfolds table named run e) {length : Nat} (hlength : length ≤ e.firstDepth) :
    FirstPath table run length := by
  induction h generalizing length with
  | none =>
    obtain rfl : length = 0 := Nat.le_zero.mp hlength
    exact .nil
  | last hplace hentry _ _ _ _ ih =>
    cases length with
    | zero => exact .nil
    | succ length => exact .cons hplace hentry (ih (Nat.le_of_succ_le_succ hlength))
  | more hplace hentry _ _ _ _ _ _ _ ih _ =>
    -- The path goes on below the first edge, whatever edges are behind it.
    cases length with
    | zero => exact .nil
    | succ length => exact .cons hplace hentry (ih (Nat.le_of_succ_le_succ hlength))

theorem IsProper.isUpper_letterOf {place entry : Nat} (h : IsProper table place)
    (hentry : table[place]? = some entry) : isUpper (letterOf entry) = true := by
  cases h with
  | last hfirst hupper =>
    rw [hfirst] at hentry
    cases hentry
    exact hupper
  | more hfirst hupper =>
    rw [hfirst] at hentry
    cases hentry
    exact hupper

/-- **Reading goes down the path of first entries**, and ends there if no depth is left. -/
theorem readNode_of_firstPath {depth run : Nat} (hpath : FirstPath table run depth)
    (hform : IsWellFormed table run) (s : Reading) (hknown : ∀ k : Nat, s.known[k]? = none)
    (hactive : ∀ r ∈ s.active, ¬ Reaches table run r) (terminal : Bool) :
    readNode table depth run terminal s = .error .tooDeep := by
  induction hpath generalizing s terminal with
  | nil =>
    unfold readNode
    rw [hknown]
  | @cons run entry length hrun hentry hrest ih =>
    have hself : run ∉ s.active := fun hmem => hactive run hmem .refl
    have hleads : Leads table run (runOf entry) := ⟨entry, ⟨hrun, .first hentry⟩, rfl⟩
    have hbelow : readNode table length (runOf entry) (isTerminal entry)
        { s with active := run :: s.active } = .error .tooDeep := by
      refine ih (hform.of_reaches (.single hleads)) { s with active := run :: s.active } hknown
        ?_ _
      -- The run behind the first entry leads back to no run that is being read.
      intro r hr hreaches
      rcases List.mem_cons.mp hr with rfl | hr
      · exact hform.acyclic r .refl (.head' hleads hreaches)
      · exact hactive r hr (.head hleads hreaches)
    have hrun' : readRun table (readNode table length) (table.size - run) run none
        { s with active := run :: s.active } = .error .tooDeep := by
      obtain ⟨hindex, -⟩ := Array.getElem?_eq_some_iff.mp hentry
      have hleft : table.size - run = table.size - (run + 1) + 1 := by omega
      have hupper := (hform.proper run .refl hrun).isUpper_letterOf hentry
      rw [hleft]
      exact readRun_of_error hentry hupper (by simp) hbelow
    unfold readNode
    rw [hknown]
    simp only
    rw [if_neg hrun, if_neg (by simpa using hself), hrun']

/-- **A first word that is too long** for the reader is written all the same, and never read. -/
theorem decode_of_long_first {g : WordGraph} (hsound : g.IsSound) (hlive : g.IsLive)
    (hcapitals : ∀ w ∈ g.words, w.InCapitals) {bytes : List UInt8}
    (hencode : encode g = .ok bytes) {w : Word} (hfirst : g.words.head? = some w)
    (hlong : maxDepth < w.length) : decode bytes = .error .tooDeep := by
  obtain ⟨layout, placed, hlayout, himage, hunfolds⟩ :=
    exists_unfolds_of_encode hsound (hlive.edges.upper hcapitals) hencode
  have hpath := hunfolds.firstPath
    (Nat.le_trans hlong (hlive.edges.length_le_firstDepth hfirst))
  have hread := readNode_of_firstPath hpath hunfolds.isWellFormed Reading.start
    (fun _ => Std.TreeMap.getElem?_emptyc) (List.forall_mem_nil _) false
  unfold decode
  rw [entriesOf_eq_ok_iff.mpr himage]
  simp only
  rw [rootRun] at hread
  rw [hread]

end Image

end WordStudy
