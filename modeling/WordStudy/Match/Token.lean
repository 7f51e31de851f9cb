import WordStudy.Word.LetterSet

/-!
# Tokens

Patterns and racks are written with the same signs: a letter in either case, `?` or `.` for
one letter, `*` for any number of them, and `[ABC]` or `[^ABC]` for one letter in, or not in,
a class. Any other sign makes the text malformed.
-/

namespace WordStudy

/-- One sign of a pattern or rack. -/
inductive Token where
  | letter (l : UInt8)
  | any
  | star
  | oneOf (set : LetterSet)
  deriving DecidableEq, Repr

namespace Token

/-- The token takes this byte; `*` takes every one. -/
def takes : Token → UInt8 → Bool
  | letter l, b => l == b
  | any, _ => true
  | star, _ => true
  | oneOf set, b => set.contains b

/-- The token stands for any number of letters. -/
def isStar : Token → Bool
  | star => true
  | _ => false

def isLetter : Token → Bool
  | letter _ => true
  | _ => false

/-- The upper-case letter that an ASCII letter stands for. -/
def letterOf (c : Char) : UInt8 := upperByte (UInt8.ofNat c.toNat)

/-- The class written between brackets: at least one letter, behind `^` if it is negated. -/
def classOf (body : List Char) : Option Token :=
  let set (letters : List Char) : Option LetterSet :=
    if letters.isEmpty || !letters.all Char.isAlpha then none
    else some (LetterSet.ofLetters (letters.map letterOf))
  match body with
  | '^' :: letters => (set letters).map fun s => oneOf s.complement
  | letters => (set letters).map oneOf

/-- The token written with one sign. -/
def ofSign (c : Char) : Option Token :=
  if c.isAlpha then some (letter (letterOf c))
  else if c = '?' || c = '.' then some any
  else if c = '*' then some star
  else none

/-- Read tokens; inside brackets, `body` holds what was read since the opening one, in
reverse. -/
def scan : Option (List Char) → List Char → Option (List Token)
  | none, [] => some []
  | some _, [] => none
  | none, c :: rest =>
    if c = '[' then scan (some []) rest
    else
      match ofSign c, scan none rest with
      | some token, some tokens => some (token :: tokens)
      | _, _ => none
  | some body, c :: rest =>
    if c = ']' then
      -- The signs between the brackets were put together back to front.
      match classOf body.reverse, scan none rest with
      | some token, some tokens => some (token :: tokens)
      | _, _ => none
    else scan (some (c :: body)) rest

/-- The tokens of a text, `none` if it is malformed. -/
def read (text : String) : Option (List Token) := scan none text.toList

end Token

end WordStudy
