/-!
# Live positions

Signs stand for symbols: a **star** takes any number of them, every other sign takes exactly one.
Whether a sequence of signs spells a sequence of symbols is found by reading the symbols once, with
the live positions at hand, that is, for each number of signs, whether so many of them can have
spelled the symbols read so far.
-/

namespace WordStudy

/-- For each number of signs, all of them included, whether it is live. -/
abbrev Live : Type := List Bool

namespace Live

def any (live : Live) : Bool := List.any live id

/-- The position behind all signs is live. -/
def complete (live : Live) : Bool := live.getLast?.getD false

end Live

/-- What signs of a kind take. -/
structure SignRules (σ β : Type) where
  /-- The sign takes any number of symbols. -/
  isStar : σ → Bool
  /-- The sign takes the symbol. -/
  takes : σ → β → Bool

namespace SignRules

variable {σ β : Type} (rules : SignRules σ β)

/-- The live positions before the first symbol, when the first is live or not: a star may take
nothing, so it passes liveness on. -/
def liveStart : List σ → Bool → Live
  | [], here => [here]
  | sign :: signs, here => here :: liveStart signs (here && rules.isStar sign)

/-- The live positions behind the symbol `b`. A position is live if the sign before it took `b`,
if a star at it took `b` and stays, or if a star before it is passed without a symbol; `arrives`
says that the first position is reached from the sign before. -/
def liveStep (b : β) : List σ → Live → Bool → Live
  | sign :: signs, was :: live, arrives =>
    let here := arrives || (rules.isStar sign && was)
    here ::
      liveStep b signs live (if rules.isStar sign then here else was && rules.takes sign b)
  | _, _, arrives => [arrives]

/-- The live positions before the first symbol. -/
def start (signs : List σ) : Live := rules.liveStart signs true

/-- The live positions behind one more symbol, `none` if there are none. -/
def step (signs : List σ) (live : Live) (b : β) : Option Live :=
  let next := rules.liveStep b signs live false
  if next.any then some next else none

/-- **The signs spell** all of the symbols. -/
def spells (signs : List σ) (symbols : List β) : Bool :=
  match symbols.foldlM (rules.step signs) (rules.start signs) with
  | some live => live.complete
  | none => false

end SignRules

end WordStudy
