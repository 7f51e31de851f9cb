import WordStudy.Proofs.Graph.Live
import WordStudy.Proofs.Graph.Vocabulary

/-!
# Edges with capital letters

That all words are made of capital letters says nothing of edges at whose end no word begins, and an
image may have such **dead edges**. They are walked along like all others. But the reader of images
refuses any entry whose letter is no capital, and words that are added are made of capitals, so that
all edges that a search can meet have capital letters.
-/

namespace WordStudy

namespace Edges

/-! ## §1 Edges -/

/-- Words along edges with capital letters are made of them. -/
theorem Upper.inCapitals {e : Edges} (h : e.Upper) : e.InCapitals := by
  induction e with
  | nil => simp [InCapitals, words]
  | edge l m below others ihBelow ihOthers =>
    exact (ihBelow h.2.1).edge h.1 (ihOthers h.2.2)

theorem Upper.chain {others : Edges} (h : others.Upper) {l : UInt8} (hl : isUpper l = true)
    {w : Word} (hw : w.InCapitals) (next : Nat) : (chain l w next others).Upper := by
  induction w generalizing l next others with
  | nil => exact ⟨hl, trivial, h⟩
  | cons c w ih => exact ⟨hl, ih (show nil.Upper from trivial) (hw c (by simp)) hw.of_cons _, h⟩

/-- **A word of capital letters** is added along edges with capital letters. -/
theorem Upper.insert {e : Edges} (h : e.Upper) {l : UInt8} (hl : isUpper l = true) {w : Word}
    (hw : w.InCapitals) (next : Nat) : (e.insert l w next).1.Upper := by
  induction e generalizing l w next with
  | nil => exact h.chain hl hw next
  | edge k m below others ihBelow ihOthers =>
    obtain ⟨hk, hbelow, hothers⟩ := id h
    -- The letter goes before this edge, to it, or to one of the others.
    simp only [Edges.insert]
    split
    · exact h.chain hl hw next
    split
    · cases w with
      | nil => exact h
      | cons c w => exact ⟨hk, ihBelow hbelow (hw c (by simp)) hw.of_cons _, hothers⟩
    · exact ⟨hk, hbelow, ihOthers hothers hl hw next⟩

@[simp] theorem upper_bare (e : Edges) : e.bare.Upper ↔ e.Upper := by
  induction e with
  | nil => rfl
  | edge l m below others ihBelow ihOthers => simp [bare, Upper, ihBelow, ihOthers]

end Edges

namespace Image

/-! ## §2 Images -/

/-- All nodes that are known have edges with capital letters. -/
def Reading.IsUpper (s : Reading) : Prop :=
  ∀ (key : Nat) (c : Counted), s.known[key]? = some c → c.node.edges.Upper

theorem Reading.isUpper_start : Reading.start.IsUpper := by
  intro key c hc
  simp [Reading.start] at hc

theorem Reading.IsUpper.finish {s : Reading} (h : s.IsUpper) (run : Nat) (terminal : Bool)
    {edges : Edges} (hedges : edges.Upper) (below : Nat) :
    (s.finish run terminal edges below).1.node.edges.Upper ∧
      (s.finish run terminal edges below).2.IsUpper := by
  refine ⟨hedges, fun key c hc => ?_⟩
  simp only [Reading.finish, Std.TreeMap.getElem?_insert] at hc
  split at hc
  · cases hc
    exact hedges
  · exact h key c hc

/-- **Reading a run** gives edges with capital letters, if reading a node does so. -/
theorem upper_readRun {table : Array Nat}
    {descend : Nat → Bool → Reading → Except ImageFault (Counted × Reading)}
    (hdescend : ∀ run terminal s c s', s.IsUpper → descend run terminal s = .ok (c, s') →
      c.node.edges.Upper ∧ s'.IsUpper)
    (left index : Nat) (last : Option UInt8) {s s' : Reading} {edges : Edges} {words : Nat}
    (h : s.IsUpper) (hread : readRun table descend left index last s = .ok ((edges, words), s')) :
    edges.Upper ∧ s'.IsUpper := by
  -- Each entry that is read has a letter that was tested, and others follow if it is not the last.
  induction left generalizing index last s s' edges words with
  | zero => cases hread
  | succ left ih =>
    obtain ⟨entry, target, s₁, -, hupper, -, htarget, hrest⟩ := readRun_eq_ok hread
    obtain ⟨hbelow, hs₁⟩ := hdescend _ _ _ _ _ h htarget
    rcases hrest with ⟨-, rfl, rfl, rfl⟩ | ⟨-, others, more, hothers, rfl, rfl⟩
    · exact ⟨⟨hupper, hbelow, trivial⟩, hs₁⟩
    · obtain ⟨hrest, hs'⟩ := ih _ _ hs₁ hothers
      exact ⟨⟨hupper, hbelow, hrest⟩, hs'⟩

/-- **Reading a node** gives edges with capital letters. -/
theorem upper_readNode {table : Array Nat} (depth run : Nat) (terminal : Bool) {s s' : Reading}
    {c : Counted} (h : s.IsUpper) (hread : readNode table depth run terminal s = .ok (c, s')) :
    c.node.edges.Upper ∧ s'.IsUpper := by
  -- A run that is not known yet is read one level below.
  induction depth using Nat.strongRecOn generalizing run terminal s s' c with
  | ind depth ih =>
    rcases readNode_eq_ok hread with
      ⟨hknown, rfl⟩ | ⟨-, -, hfinish⟩ | ⟨-, -, -, below, edges, words, s₁, rfl, hrun, hfinish⟩
    · exact ⟨h _ c hknown, h⟩
    · cases hfinish
      exact h.finish run terminal (show Edges.nil.Upper from trivial) 0
    · cases hfinish
      have hactive : Reading.IsUpper { s with active := run :: s.active } := h
      obtain ⟨hedges, hs₁⟩ := upper_readRun
        (fun _ _ _ _ _ hs hd => ih below (Nat.lt_succ_self below) _ _ hs hd) _ _ none hactive hrun
      exact hs₁.finish run terminal hedges words

/-- **All edges of an image** have capital letters, whether a word goes along them or not. -/
theorem upper_of_decode {bytes : List UInt8} {g : WordGraph} (h : decode bytes = .ok g) :
    g.root.edges.Upper := by
  unfold decode at h
  split at h
  · cases h
  split at h
  · cases h
  next root s hroot =>
  cases h
  exact (upper_readNode _ _ _ Reading.isUpper_start hroot).1

end Image

namespace WordGraph

/-! ## §3 Graphs -/

theorem upper_insert {g : WordGraph} (h : g.root.edges.Upper) {w : Word} (hw : w.InCapitals) :
    (g.insert w).1.root.edges.Upper := by
  cases w with
  | nil => exact h
  | cons l w =>
    simp only [insert]
    split
    · exact h
    · exact h.insert (hw l (by simp)) hw.of_cons _

theorem upper_merge {g : WordGraph} (hsound : g.IsSound) (h : g.root.edges.Upper) :
    g.merge.root.edges.Upper := by
  obtain ⟨-, -, hbare⟩ := merge_spec hsound.sharesSoundly
  rwa [← Edges.upper_bare, hbare, Edges.upper_bare]

end WordGraph

namespace Vocabulary

/-! ## §4 Vocabularies -/

/-- All edges of both graphs have capital letters. -/
structure IsUpper (v : Vocabulary) : Prop where
  forward : v.forward.root.edges.Upper
  backward : ∀ g, v.backward = some g → g.root.edges.Upper

theorem isUpper_empty : empty.IsUpper := ⟨trivial, nofun⟩

theorem IsUpper.add {v : Vocabulary} (h : v.IsUpper) {w : Word} (hw : w.upper.InCapitals) :
    (v.add w).1.IsUpper := by
  unfold Vocabulary.add
  split
  · next forward hinsert =>
    have hforward : forward = (v.forward.insert w.upper).1 := by rw [hinsert]
    subst hforward
    refine ⟨WordGraph.upper_insert h.forward hw, fun g hg => ?_⟩
    obtain ⟨g₀, hg₀, rfl⟩ := Option.map_eq_some_iff.mp hg
    exact WordGraph.upper_insert (h.backward g₀ hg₀) fun b hb => hw b (List.mem_reverse.mp hb)
  · exact h

theorem IsUpper.merge {v : Vocabulary} (h : v.IsUpper) (hsound : v.IsSound) : v.merge.IsUpper where
  forward := WordGraph.upper_merge hsound.forward h.forward
  backward := by
    intro g hg
    obtain ⟨g₀, hg₀, rfl⟩ := Option.map_eq_some_iff.mp hg
    exact WordGraph.upper_merge (hsound.backward g₀ hg₀) (h.backward g₀ hg₀)

/-- **The turned graph** has the letters of the words that it turns. -/
theorem upper_turned {g : WordGraph} (h : g.root.edges.Upper) : (turned g).root.edges.Upper := by
  rw [turned_eq_run]
  refine WordGraph.upper_merge (WordGraph.isSound_empty.run _) ?_
  rw [WordGraph.run, List.foldl_map]
  apply List.foldlRecOn (motive := fun turned : WordGraph => turned.root.edges.Upper)
  · exact trivial
  · intro turned hturned w hw
    have hcapitals := h.inCapitals w hw
    exact WordGraph.upper_insert hturned fun b hb => hcapitals b (List.mem_reverse.mp hb)

/-- **The vocabulary of an image** has capital letters along all edges. -/
theorem isUpper_of_ofImage {bytes : List UInt8} {backwards : Bool} {expected : Option (BitVec 16)}
    {v : Vocabulary} (h : ofImage bytes backwards expected = .ok v) : v.IsUpper := by
  obtain ⟨g, hg, rfl⟩ := ofImage_eq_ok h
  have hupper := Image.upper_of_decode hg
  cases backwards with
  | false => exact ⟨hupper, nofun⟩
  | true =>
    refine ⟨upper_turned hupper, fun g' hg' => ?_⟩
    cases hg'
    exact hupper

/-! ## §5 Histories -/

/-- **The edges are no worse than the words**: all have capital letters if the words do. -/
def UpperAsWords (v : Vocabulary) : Prop := (∀ w ∈ v.words, w.InCapitals) → v.IsUpper

theorem UpperAsWords.add {v : Vocabulary} (h : v.UpperAsWords) (hsound : v.IsSound) (w : Word) :
    (v.add w).1.UpperAsWords := by
  intro hwords
  have hbefore : v.IsUpper := h fun u hu => hwords u ((hsound.mem_words_add w u).mpr (.inr hu))
  apply hbefore.add
  by_cases hnil : w.upper = []
  · simp [hnil, Word.InCapitals]
  · exact hwords _ ((hsound.mem_words_add w _).mpr (.inl ⟨rfl, hnil⟩))

theorem UpperAsWords.merge {v : Vocabulary} (h : v.UpperAsWords) (hsound : v.IsSound) :
    v.merge.UpperAsWords := by
  intro hwords
  rw [hsound.words_merge] at hwords
  exact (h hwords).merge hsound

theorem UpperAsWords.perform {v : Vocabulary} (h : v.UpperAsWords) (hsound : v.IsSound)
    (step : VocabularyStep) : (v.perform step).UpperAsWords := by
  cases step with
  | add w => exact h.add hsound w
  | importWords words =>
    -- Words are added one by one, and soundness is needed at each of them.
    have hall := addAll_induction (p := fun v => v.UpperAsWords ∧ v.IsSound) words ⟨h, hsound⟩
      fun v hv w _ => ⟨hv.1.add hv.2 w, hv.2.add w⟩
    exact hall.1.merge hall.2
  | merge => exact h.merge hsound
  | load bytes backwards expected =>
    simp only [Vocabulary.perform, Vocabulary.load]
    split
    · next loaded hload => exact fun _ => isUpper_of_ofImage hload
    · exact h

/-- **Capital letters along all edges**, after any history that leaves words of capital letters.
Words of other letters may have been there before an image took their place. -/
theorem isUpper_runSteps {steps : List VocabularyStep}
    (hwords : ∀ w ∈ (empty.runSteps steps).words, w.InCapitals) :
    (empty.runSteps steps).IsUpper := by
  suffices hrun : ∀ v : Vocabulary, v.UpperAsWords → v.IsSound → (v.runSteps steps).UpperAsWords from
    hrun empty (fun _ => isUpper_empty) isSound_empty hwords
  clear hwords
  induction steps with
  | nil => exact fun _ h _ => h
  | cons step steps ih => exact fun v h hsound => ih _ (h.perform hsound step) (hsound.perform step)

end Vocabulary

end WordStudy
