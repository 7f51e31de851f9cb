import WordStudy.Match.Live
import WordStudy.Text.Utf8

/-!
# Text masks

A mask is a text in which `%` stands for any characters, `_` for one, and a backslash takes
its meaning from the character behind it. Letters of the ASCII alphabet match in **either
case**; all other characters match themselves only. A mask that ends in a single backslash
matches nothing, and both mask and text end at a null character.
-/

namespace WordStudy

/-- One sign of a mask. -/
inductive MaskSign where
  | anyText
  | anyCharacter
  | character (c : Char)
  deriving DecidableEq, Repr

namespace Mask

/-- The character as it is compared: the two last characters of the basic plane, which are none,
count as the replacement character. -/
def comparable (c : Char) : Char :=
  if c = '\uFFFE' || c = '\uFFFF' then Text.Utf8.replacement else c

/-- The characters before the first null character. -/
def readable (text : List Char) : List Char := (text.takeWhile (· ≠ '\x00')).map comparable

/-- The signs of a mask, `none` if a backslash has nothing behind it. -/
def signs : List Char → Option (List MaskSign)
  | [] => some []
  | ['\\'] => none
  | '\\' :: c :: rest => (signs rest).map (.character c :: ·)
  | '%' :: rest => (signs rest).map (.anyText :: ·)
  | '_' :: rest => (signs rest).map (.anyCharacter :: ·)
  | c :: rest => (signs rest).map (.character c :: ·)

/-- The characters are the same, ASCII letters in either case. -/
def sameCharacter (c d : Char) : Bool := c.toLower == d.toLower

/-- What the signs of a mask take. -/
def rules : SignRules MaskSign Char where
  isStar sign := sign = .anyText
  takes
    | .character c, d => sameCharacter c d
    | _, _ => true

/-- **The mask matches** the text. -/
def covers (mask text : List Char) : Bool :=
  match signs (readable mask) with
  | some signs => rules.spells signs (readable text)
  | none => false

/-- The mask that matches only one text, put in upper case, with the wildcards of a pattern:
`?` and `.` for one character, `*` for any. The signs of masks are escaped. -/
def ofPattern (pattern : List Char) : List Char :=
  pattern.flatMap fun c =>
    if c = '?' || c = '.' then ['_']
    else if c = '*' then ['%']
    else if c = '_' || c = '%' || c = '\\' then ['\\', c]
    else [c.toUpper]

/-- The mask of texts that have the letter so many times. -/
def containing (letter : Char) (times : Nat) : List Char :=
  '%' :: (List.replicate times [letter, '%']).flatten

end Mask

end WordStudy
