import WordStudy.Match.Live
import WordStudy.Match.Token

/-!
# Patterns

A pattern is a sequence of tokens that must spell a whole word: a letter token takes its own
letter, `?` any one byte, a class one of its members and `*` any number of bytes.
-/

namespace WordStudy

/-- A wildcard pattern. -/
structure Pattern where
  tokens : List Token
  deriving DecidableEq, Repr

namespace Pattern

/-! ## §1 Reading and measures -/

/-- The most tokens a pattern may have. -/
def maxTokens : Nat := 127

/-- The pattern that a text writes, `none` if it is malformed, empty or too long. -/
def read (text : String) : Option Pattern :=
  match Token.read text with
  | none => none
  | some tokens => if tokens.isEmpty || maxTokens < tokens.length then none else some ⟨tokens⟩

/-- The length of every matching word, if the pattern has no `*`. -/
def fixedLength? (p : Pattern) : Option Nat :=
  if p.tokens.any Token.isStar then none else some p.tokens.length

/-- The least length of a matching word. -/
def minLength (p : Pattern) : Nat := p.tokens.countP (!·.isStar)

/-- The pattern for the same words spelled backwards. -/
def reversed (p : Pattern) : Pattern := ⟨p.tokens.reverse⟩

def leadingLetters (p : Pattern) : Nat := (p.tokens.takeWhile Token.isLetter).length

def trailingLetters (p : Pattern) : Nat := p.reversed.leadingLetters

/-! ## §2 Matching -/

def rules : SignRules Token UInt8 := ⟨Token.isStar, Token.takes⟩

/-- The live positions before the first byte. -/
def start (p : Pattern) : Live := rules.start p.tokens

/-- The live positions behind one more byte, `none` if there are none. -/
def step (p : Pattern) (live : Live) (b : UInt8) : Option Live := rules.step p.tokens live b

/-- **The pattern spells** the whole word. -/
def spells (p : Pattern) (w : Word) : Bool := rules.spells p.tokens w

/-! ## §3 Literal letters -/

def spelledBy (tokens : List Token) (w : Word) : Bool := rules.spells tokens w

/-- The marks of a word behind a `*`: the fewest bytes that let the rest of the tokens spell
what is left, each marked as filled in. `fits` tells whether they can, `marks` marks the
rest. -/
def skipToFit (fits : Word → Bool) (marks : Word → Option (List Bool)) : Word → Option (List Bool)
  | [] => if fits [] then marks [] else none
  | b :: w =>
    if fits (b :: w) then marks (b :: w)
    else (skipToFit fits marks w).map (false :: ·)

/-- For each byte of a word, whether a letter token spelled it, each `*` taking as few bytes
as it can, from the left; `none` if the tokens do not spell the word. -/
def literalMarks : List Token → Word → Option (List Bool)
  | [], [] => some []
  | [], _ :: _ => none
  | .star :: ts, w => skipToFit (spelledBy ts) (literalMarks ts) w
  | _ :: _, [] => none
  | t :: ts, b :: w => if t.takes b then (literalMarks ts w).map (t.isLetter :: ·) else none

/-- For each byte of the word, whether a letter of the pattern spelled it; `none` if the
pattern does not match. -/
def literalLetters (p : Pattern) (w : Word) : Option (List Bool) := literalMarks p.tokens w

end Pattern

end WordStudy
