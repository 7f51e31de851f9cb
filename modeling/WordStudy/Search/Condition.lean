import WordStudy.Match.Pattern
import WordStudy.Match.Rack
import WordStudy.Search.Bounds
import WordStudy.Search.StudySet

/-!
# Conditions

One constraint of a search, and how it is written in a query. Most conditions can be
**negated**; the ones on numbers cannot.
-/

namespace WordStudy

/-- One constraint on the words to find. -/
inductive Condition where
  /-- The pattern spells the word. -/
  | pattern (text : String) (negated : Bool)
  /-- The word uses every tile of the rack. -/
  | anagram (letters : String) (negated : Bool)
  /-- The word uses some tiles of the rack. -/
  | subanagram (letters : String) (negated : Bool)
  /-- The word uses some tiles of the rack and has one of the `lengths`. -/
  | consist (letters : String) (lengths : Bounds) (negated : Bool)
  | length (range : Bounds)
  /-- The word has every listed letter, as often as it is listed. -/
  | containing (letters : String) (negated : Bool)
  /-- `front` with the word behind it is a word. -/
  | takesFront (front : String) (negated : Bool)
  /-- The word with `back` behind it is a word. -/
  | takesBack (back : String) (negated : Bool)
  | vowels (range : Bounds)
  /-- The number of different letters. -/
  | distinct (range : Bounds)
  | points (range : Bounds)
  /-- The number of words with the same letters. -/
  | anagrams (range : Bounds)
  /-- The stored rank; a lax condition holds anywhere in the range of a tie. -/
  | rank (range : Bounds) (lax : Bool)
  | inSet (set : StudySet) (negated : Bool)
  | inList (words : List String) (negated : Bool)
  /-- Only a window of ranks of the result is kept. -/
  | window (range : Bounds) (lax legacy : Bool)
  deriving DecidableEq, Repr

namespace Condition

/-- The condition with its negation flipped; one that has none stays as it is. -/
def negate : Condition → Condition
  | pattern text negated => pattern text !negated
  | anagram letters negated => anagram letters !negated
  | subanagram letters negated => subanagram letters !negated
  | consist letters lengths negated => consist letters lengths !negated
  | containing letters negated => containing letters !negated
  | takesFront front negated => takesFront front !negated
  | takesBack back negated => takesBack back !negated
  | inSet set negated => inSet set !negated
  | inList words negated => inList words !negated
  | c => c

/-- The condition is negated. -/
def isNegated : Condition → Bool
  | pattern _ negated => negated
  | anagram _ negated => negated
  | subanagram _ negated => negated
  | consist _ _ negated => negated
  | containing _ negated => negated
  | takesFront _ negated => negated
  | takesBack _ negated => negated
  | inSet _ negated => negated
  | inList _ negated => negated
  | _ => false

def isList : Condition → Bool
  | inList .. => true
  | _ => false

def isWindow : Condition → Bool
  | window .. => true
  | _ => false

def isLength : Condition → Bool
  | length _ => true
  | _ => false

/-- The condition with its letters in upper case. -/
def upper : Condition → Condition
  | pattern text negated => pattern text.toUpper negated
  | anagram letters negated => anagram letters.toUpper negated
  | subanagram letters negated => subanagram letters.toUpper negated
  | consist letters lengths negated => consist letters.toUpper lengths negated
  | containing letters negated => containing letters.toUpper negated
  | takesFront front negated => takesFront front.toUpper negated
  | takesBack back negated => takesBack back.toUpper negated
  | inList words negated => inList (words.map String.toUpper) negated
  | c => c

def sign (negated : Bool) : String := if negated then "-" else ""

def rankField (lax : Bool) : String := if lax then "problax" else "prob"

/-- The field of a window of ranks; a legacy one cannot be told lax. -/
def windowField (lax legacy : Bool) : String :=
  if legacy then "limitlegacy" else if lax then "limitlax" else "limit"

/-- **The condition as a term** of a query. -/
def text : Condition → String
  | pattern text negated => s!"{sign negated}pattern:{text}"
  | anagram letters negated => s!"{sign negated}anagram:{letters}"
  | subanagram letters negated => s!"{sign negated}subanagram:{letters}"
  | consist letters lengths negated =>
    s!"{sign negated}consist:{letters}:{lengths.least}-{lengths.greatest}"
  | length range => s!"length:{range.text}"
  | containing letters negated => s!"{sign negated}include:{letters}"
  | takesFront front negated => s!"{sign negated}prefix:{front}"
  | takesBack back negated => s!"{sign negated}suffix:{back}"
  | vowels range => s!"vowels:{range.text}"
  | distinct range => s!"unique:{range.text}"
  | points range => s!"points:{range.text}"
  | anagrams range => s!"anagrams:{range.text}"
  | rank range lax => s!"{rankField lax}:{range.text}"
  | inSet set negated => s!"{sign negated}set:{set.name}"
  | inList words negated => sign negated ++ "list:" ++ ",".intercalate words
  | window range lax legacy => s!"{windowField lax legacy}:{range.text}"

/-- The lengths that a positive pattern or rack leaves possible, `none` if any. A malformed
text gives no hint. -/
def lengthHint : Condition → Option Bounds
  | pattern text false => (Pattern.read text).bind fun p => p.fixedLength?.map Bounds.exactly
  | anagram letters false =>
    (Rack.read letters).bind fun r => if r.unlimited then none else some (.exactly r.size)
  | subanagram letters false =>
    (Rack.read letters).bind fun r => if r.unlimited then none else some ⟨1, r.size⟩
  | consist _ lengths false => some ⟨max lengths.least 1, lengths.greatest⟩
  | _ => none

@[simp] theorem negate_negate (c : Condition) : c.negate.negate = c := by
  cases c <;> simp [negate]

end Condition

end WordStudy
