import WordStudy.Graph.Basic

/-!
# Scanning a graph

A scanner reads words letter by letter and may give up early. It is run along the edges of a
graph, so that words with a common start are read once and words it gives up on are never
spelled out. The words found come in the order of their bytes.
-/

namespace WordStudy

/-- A reader of words with states `σ`. -/
structure Scanner (σ : Type) where
  /-- The state behind one more letter, `none` if no word can be found any more. -/
  step : σ → UInt8 → Option σ
  accepts : σ → Bool

namespace Scanner

variable {σ : Type}

/-- The scanner finds the word when it starts in a state. -/
def finds (scanner : Scanner σ) (state : σ) (w : Word) : Bool :=
  (w.foldlM scanner.step state).any scanner.accepts

/-- The words along the edges that the scanner finds when it starts in a state. -/
def scan (scanner : Scanner σ) : Edges → σ → List Word
  | .nil, _ => []
  | .edge l m below others, state =>
    let here :=
      match scanner.step state l with
      | none => []
      | some next =>
        let longer := (scan scanner below next).map (l :: ·)
        -- A word comes before all words that go on from it.
        if m.terminal && scanner.accepts next then [l] :: longer else longer
    here ++ scan scanner others state

/-- A word that begins with `l` is found from a state exactly if the rest is found from the
next one. -/
theorem finds_cons (scanner : Scanner σ) (state : σ) (l : UInt8) (w : Word) :
    scanner.finds state (l :: w) =
      match scanner.step state l with
      | none => false
      | some next => scanner.finds next w := by
  simp only [finds, List.foldlM_cons]
  cases scanner.step state l <;> rfl

/-- **Scanning is filtering**: along any edges, the scanner finds just those words that it
accepts when it reads them alone. -/
theorem scan_eq_filter (scanner : Scanner σ) (e : Edges) (state : σ) :
    scanner.scan e state = e.words.filter (scanner.finds state) := by
  induction e generalizing state with
  | nil => rfl
  | edge l m below others ihBelow ihOthers =>
    simp only [scan, Edges.words, List.filter_append, ihOthers]
    congr 1
    cases hs : scanner.step state l with
    | none =>
      symm
      split <;> simp [List.filter_eq_nil_iff, finds_cons, hs]
    | some next =>
      have hlonger : List.filter (scanner.finds state) (List.map (l :: ·) below.words) =
          List.map (l :: ·) (List.filter (scanner.finds next) below.words) := by
        rw [List.filter_map]
        congr 1
        apply List.filter_congr
        intro w _
        simp [finds_cons, hs]
      have hself : scanner.finds state [l] = scanner.accepts next := by
        rw [finds_cons, hs]
        rfl
      cases ht : m.terminal <;> cases ha : scanner.accepts next <;>
        simp [ihBelow, hlonger, hself, ha]

end Scanner

end WordStudy
