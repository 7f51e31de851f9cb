import WordStudy.Proofs.Graph.Vocabulary

/-!
# Hooks

The letters that can be put **in front** of a word are tried one by one; those that can be put
**behind** it are read off the edges of the node that the word leads to. Both are the letters, in
order, that make a word of the vocabulary, and neither depends on the case of the word.
-/

namespace WordStudy

/-! ## §1 Walking on -/

theorem Node.walk_append (n : Node) (v w : Word) :
    n.walk (v ++ w) = (n.walk v).bind fun m => m.walk w := by
  induction v generalizing n with
  | nil => rfl
  | cons l v ih =>
    rw [List.cons_append, walk, walk, Option.bind_assoc]
    congr 1
    funext m
    exact ih m

theorem Node.walk_singleton (n : Node) (l : UInt8) : n.walk [l] = n.edges.child? l := by
  simp [walk]

namespace Edges

theorem mem_toList_of_child? {e : Edges} {l : UInt8} {n : Node} (h : e.child? l = some n) :
    (l, n) ∈ e.toList := by
  induction e with
  | nil => cases h
  | edge k m below others _ ihOthers =>
    simp only [child?] at h
    split at h
    · next heq =>
      cases h
      exact heq ▸ List.mem_cons_self ..
    · exact List.mem_cons_of_mem _ (ihOthers h)

/-- **Sorted edges have one node for a letter.** -/
theorem Sorted.mem_toList_iff {e : Edges} (h : e.Sorted) (l : UInt8) (n : Node) :
    (l, n) ∈ e.toList ↔ e.child? l = some n := by
  refine ⟨?_, mem_toList_of_child?⟩
  intro hmem
  induction e with
  | nil => cases hmem
  | edge k m below others _ ihOthers =>
    rcases List.mem_cons.mp hmem with heq | hmem
    · cases heq
      simp [child?]
    · -- A later edge has a greater letter, so the first one is passed over.
      have hless : k < l := h.2.1 l (List.mem_map.mpr ⟨_, hmem, rfl⟩)
      have hne : k ≠ l := UInt8.ne_of_lt hless
      simp only [child?, hne, if_false]
      exact ihOthers h.2.2 hmem

theorem Sorted.pairwise_letters {e : Edges} (h : e.Sorted) : e.letters.Pairwise (· < ·) := by
  induction e with
  | nil => exact .nil
  | edge k m below others _ ihOthers => exact List.pairwise_cons.mpr ⟨h.2.1, ihOthers h.2.2⟩

theorem Sorted.of_child? {e : Edges} (h : e.Sorted) {l : UInt8} {n : Node}
    (hchild : e.child? l = some n) : n.edges.Sorted := by
  induction e with
  | nil => cases hchild
  | edge k m below others _ ihOthers =>
    simp only [child?] at hchild
    split at hchild
    · cases hchild
      exact h.1
    · exact ihOthers h.2.2 hchild

end Edges

/-- Below sorted edges, all edges are sorted. -/
theorem Node.sorted_of_walk {n m : Node} (h : n.edges.Sorted) {w : Word} (hwalk : n.walk w = some m) :
    m.edges.Sorted := by
  induction w generalizing n with
  | nil =>
    cases hwalk
    exact h
  | cons l w ih =>
    obtain ⟨c, hchild, hrest⟩ := Option.bind_eq_some_iff.mp hwalk
    exact ih (h.of_child? hchild) hrest

/-- Letters in strictly ascending order are determined by their members. -/
theorem eq_of_mem_iff_of_pairwise_lt {xs ys : List UInt8} (hx : xs.Pairwise (· < ·))
    (hy : ys.Pairwise (· < ·)) (h : ∀ l, l ∈ xs ↔ l ∈ ys) : xs = ys := by
  have hnodup {zs : List UInt8} (hz : zs.Pairwise (· < ·)) : zs.Nodup :=
    hz.imp fun hless => UInt8.ne_of_lt hless
  refine ((List.perm_ext_iff_of_nodup (hnodup hx) (hnodup hy)).mpr h).eq_of_pairwise ?_ hx hy
  intro a b _ _ hab hba
  exact absurd (UInt8.lt_trans hab hba) (UInt8.lt_irrefl a)

/-- **Letters in lower case and in order**: those that are wanted. -/
def lettersWith (wanted : UInt8 → Bool) : String :=
  String.ofList ((alphabet.filter wanted).map fun l => Char.ofNat (lowerByte l).toNat)

theorem pairwise_alphabet : alphabet.Pairwise (· < ·) := by decide

namespace Vocabulary

variable {v : Vocabulary}

/-! ## §2 Letters behind a word -/

/-- A letter makes a word behind another if the edge with it leads to the end of a word. -/
theorem contains_snoc (v : Vocabulary) (w : Word) {l : UInt8} (hl : upperByte l = l) :
    v.contains (w ++ [l]) =
      (v.forward.walk w.upper).any fun n => (n.edges.child? l).any (·.mark.terminal) := by
  have hupper : Word.upper (w ++ [l]) = w.upper ++ [l] := by simp [Word.upper, hl]
  have hnonempty : (w.upper ++ [l]).isEmpty = false := by simp
  rw [contains, hupper, WordGraph.contains, hnonempty, WordGraph.walk, Node.walk_append]
  show (((v.forward.root.walk w.upper).bind fun m => m.walk [l]).any (·.mark.terminal)) = _
  simp only [Node.walk_singleton]
  cases hwalk : v.forward.root.walk w.upper <;> simp [WordGraph.walk, hwalk]

/-- **The edges to ends of words** behind a word are those with a letter that makes a word. -/
theorem IsSound.mem_terminal_letters (h : v.IsSound) (hcapitals : ∀ w ∈ v.words, w.InCapitals)
    {w : Word} {n : Node} (hwalk : v.forward.walk w.upper = some n) (l : UInt8) :
    l ∈ (n.edges.toList.filter (·.2.mark.terminal)).map (·.1) ↔
      l ∈ alphabet.filter fun l => v.contains (w ++ [l]) := by
  have hsorted : n.edges.Sorted := Node.sorted_of_walk h.forward.sorted hwalk
  constructor
  · intro hl
    obtain ⟨⟨k, c⟩, hmem, rfl⟩ := List.mem_map.mp hl
    obtain ⟨hmem, hterminal⟩ := List.mem_filter.mp hmem
    have hchild := (hsorted.mem_toList_iff k c).mp hmem
    -- The edge spells a word of the graph, so its letter is a capital.
    have hspelled : v.forward.contains (w.upper ++ [k]) = true := by
      have hwalk' : v.forward.root.walk w.upper = some n := hwalk
      simpa [WordGraph.contains, WordGraph.walk, Node.walk_append, hwalk',
        Node.walk_singleton, hchild] using hterminal
    have hword := hcapitals _ ((h.forward.contains_iff _).mp hspelled)
    have hk : isUpper k = true := hword k (by simp)
    rw [List.mem_filter, mem_alphabet_iff, v.contains_snoc w (upperByte_of_isUpper hk), hwalk]
    simpa [hk, hchild] using hterminal
  · intro hl
    obtain ⟨hl, hcontains⟩ := List.mem_filter.mp hl
    have hcapital := upperByte_of_isUpper ((mem_alphabet_iff l).mp hl)
    rw [v.contains_snoc w hcapital, hwalk, Option.any_some, Option.any_eq_true] at hcontains
    obtain ⟨c, hchild, hterminal⟩ := hcontains
    apply List.mem_map.mpr
    exact ⟨(l, c), List.mem_filter.mpr ⟨(hsorted.mem_toList_iff l c).mpr hchild, hterminal⟩, rfl⟩

/-- **The letters behind a word are those that make a word**, in order. -/
theorem IsSound.backHooks_eq (h : v.IsSound) (hcapitals : ∀ w ∈ v.words, w.InCapitals) (w : Word) :
    v.backHooks w = lettersWith fun l => v.contains (w ++ [l]) := by
  unfold backHooks
  split
  · next hwalk =>
    -- Nothing begins with the word.
    have hnone : alphabet.filter (fun l => v.contains (w ++ [l])) = [] := by
      apply List.filter_eq_nil_iff.mpr
      intro l hl
      rw [v.contains_snoc w (upperByte_of_isUpper ((mem_alphabet_iff l).mp hl)), hwalk]
      simp
    rw [lettersWith, hnone]
    rfl
  · next n hwalk =>
    have hsorted : n.edges.Sorted := Node.sorted_of_walk h.forward.sorted hwalk
    have hletters : (n.edges.toList.filter (·.2.mark.terminal)).map (·.1) =
        alphabet.filter fun l => v.contains (w ++ [l]) := by
      apply eq_of_mem_iff_of_pairwise_lt
      · exact hsorted.pairwise_letters.sublist (List.filter_sublist.map _)
      · exact pairwise_alphabet.filter _
      · exact h.mem_terminal_letters hcapitals hwalk
    rw [lettersWith, ← hletters, List.map_map]
    rfl

end Vocabulary

/-! ## §3 In any case -/

theorem Word.upper_tail (w : Word) : Word.upper w.tail = w.upper.tail := List.map_tail

theorem Word.upper_dropLast (w : Word) : Word.upper w.dropLast = w.upper.dropLast :=
  List.map_dropLast

namespace Vocabulary

theorem contains_congr (v : Vocabulary) {u w : Word} (h : u.upper = w.upper) :
    v.contains u = v.contains w := by
  rw [contains, contains, h]

theorem frontHooks_upper (v : Vocabulary) (w : Word) : v.frontHooks w.upper = v.frontHooks w := by
  have hletter : ∀ l, v.contains (l :: w.upper) = v.contains (l :: w) := by
    intro l
    apply v.contains_congr
    show upperByte l :: w.upper.upper = upperByte l :: w.upper
    rw [Word.upper_upper]
  simp only [frontHooks, hletter]

theorem backHooks_upper (v : Vocabulary) (w : Word) : v.backHooks w.upper = v.backHooks w := by
  simp only [backHooks, Word.upper_upper]

theorem isFrontHook_upper (v : Vocabulary) (w : Word) : v.isFrontHook w.upper = v.isFrontHook w := by
  have htail : v.contains w.upper.tail = v.contains w.tail := by
    apply v.contains_congr
    rw [Word.upper_tail, Word.upper_tail, Word.upper_upper]
  rw [isFrontHook, isFrontHook, htail, Word.length_upper]

theorem isBackHook_upper (v : Vocabulary) (w : Word) : v.isBackHook w.upper = v.isBackHook w := by
  have hdrop : v.contains w.upper.dropLast = v.contains w.dropLast := by
    apply v.contains_congr
    rw [Word.upper_dropLast, Word.upper_dropLast, Word.upper_upper]
  rw [isBackHook, isBackHook, hdrop, Word.length_upper]

end Vocabulary

end WordStudy
