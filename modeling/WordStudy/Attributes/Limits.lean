import WordStudy.Attributes.Predicate
import WordStudy.Json.Printer

/-!
# Limits of a store

A store refuses to look for rows if what is asked is **nested too deep** or has a **text that is too
long**, which is seen before any row is tested, and if a test comes to a mask that is too long.
-/

namespace WordStudy

open Text

/-! ## §1 Depth -/

/-- The form of what is asked for. -/
structure QueryShape where
  /-- The number of parts that lie within each other. -/
  depth : Nat
  /-- It is seen at once that no row is asked for. -/
  isNever : Bool
  /-- Lists of texts are among the parts. -/
  hasLists : Bool
  deriving DecidableEq, Repr

namespace QueryShape

/-- What every row satisfies. -/
def always : QueryShape := ⟨1, false, false⟩

/-- What no row satisfies. -/
def never : QueryShape := ⟨1, true, false⟩

/-- A comparison. -/
def comparison : QueryShape := ⟨2, false, false⟩

/-- A look into a list. -/
def listed : QueryShape := ⟨2, false, true⟩

/-- The negation. -/
def not (s : QueryShape) : QueryShape := ⟨s.depth + 1, false, s.hasLists⟩

/-- Two parts of which one is to be satisfied. -/
def or (s t : QueryShape) : QueryShape :=
  ⟨max s.depth t.depth + 1, false, s.hasLists || t.hasLists⟩

/-- Two parts that are both to be satisfied. Beside one that no row satisfies, the other does not
matter. -/
def and (s t : QueryShape) : QueryShape := if s.isNever || t.isNever then never else s.or t

/-- The greatest depth. -/
def maxDepth : Nat := 1000

/-- The shape is not too deep; looking into a list goes one part deeper. -/
def fits (s : QueryShape) : Bool := s.depth + s.hasLists.toNat ≤ maxDepth

/-- No shape is too deep when parts are joined, one after the other, to what stands before. -/
def fitsJoined (before : QueryShape) : List QueryShape → Bool
  | [] => before.fits
  | part :: rest =>
    let joined := before.and part
    part.depth ≤ maxDepth && joined.depth ≤ maxDepth && fitsJoined joined rest

end QueryShape

/-- The shape of a predicate. A range with two ends is a pair of comparisons. -/
def Predicate.shape : Predicate → QueryShape
  | range _ bounds =>
    -- A range with one bound, or with both the same, is a single comparison.
    if bounds.least = bounds.greatest || bounds.greatest = maxWord32 then .comparison
    else QueryShape.and .comparison .comparison
  | flag _ _ => .comparison
  | like _ _ negated => if negated then .not .comparison else .comparison
  | oneOf _ _ negated => if negated then .not .listed else .listed
  | any options =>
    match options.attach.map fun ⟨p, _⟩ => p.shape with
    | [] => .never
    | first :: rest => rest.foldl .or first
  | not inner => inner.shape.not

/-- **The predicates are not nested too deep**, nor is the list of candidates behind them, if there
is one. -/
def fitsDepth (predicates : List Predicate) (hasCandidates : Bool) : Bool :=
  QueryShape.fitsJoined .always
    (predicates.map (·.shape) ++ if hasCandidates then [.listed] else [])

/-! ## §2 Texts -/

/-- The most bytes that a text handed to a store may have. -/
def maxTextSize : Nat := 1000000000

/-- The number of bytes of a text as JSON, between quotation marks. -/
def quotedSize (text : String) : Nat := (Json.quote text).utf8ByteSize

/-- The number of bytes of a list of texts as JSON, between brackets and with commas. -/
def listSize (texts : List String) : Nat :=
  texts.foldr (fun text size => quotedSize text + size) (texts.length - 1 + 2)

/-- The texts of the predicate are not too long. A list is handed over as one text. -/
def Predicate.fitsTexts : Predicate → Bool
  | like _ mask _ => mask.utf8ByteSize ≤ maxTextSize
  | oneOf _ texts _ => listSize texts ≤ maxTextSize
  | any options => options.attach.all fun ⟨p, _⟩ => p.fitsTexts
  | not inner => inner.fitsTexts
  | range _ _ => true
  | flag _ _ => true

/-- **The texts of the predicates are not too long**, nor is the list of candidates in upper case, if
there is one. -/
def fitsTexts (predicates : List Predicate) (candidates : Option (List Word)) : Bool :=
  predicates.all (·.fitsTexts) &&
    candidates.all fun words => listSize (words.map fun w => Word.text w.upper) ≤ maxTextSize

/-- **A store that has a table looks at its rows**: nothing that is handed over is nested too deep or
too long. -/
def isAskable (predicates : List Predicate) (candidates : Option (List Word)) : Bool :=
  fitsDepth predicates candidates.isSome && fitsTexts predicates candidates

/-! ## §3 Masks -/

/-- The most bytes that a mask may have. -/
def maxMaskSize : Nat := 50000

/-- Testing the row comes to a mask that is too long. Of several options, those behind the first
that holds are not tested. -/
def Predicate.meetsLongMask (row : Row) : Predicate → Bool
  | like _ mask _ => maxMaskSize < mask.utf8ByteSize
  -- Options behind the first that holds are not tested.
  | any options =>
    (options.attach.find? fun ⟨p, _⟩ => p.meetsLongMask row || p.holds row).any
      fun ⟨p, _⟩ => p.meetsLongMask row
  | not inner => inner.meetsLongMask row
  | range _ _ => false
  | flag _ _ => false
  | oneOf _ _ _ => false

/-- **Testing rows comes to a mask that is too long.** Predicates behind the first that does not
hold are not tested, and none is if it is seen at once that no row is asked for. -/
def meetsLongMask (predicates : List Predicate) (rows : List Row) : Bool :=
  !(predicates.any fun p => p.shape.isNever) &&
    rows.any fun row =>
      (predicates.find? fun p => p.meetsLongMask row || !p.holds row).any (·.meetsLongMask row)

end WordStudy
