import WordStudy.Match.Token

/-!
# Racks

A rack is a multiset of tiles: letters, blanks, classes, and perhaps a `*` that gives any
further letters. A word is spelled letter by letter. Each letter is taken from a **letter
tile if there is one**, else from a class that holds it, else from a blank, and only then
from `*`. Several classes may hold a letter, so the ways to spell a word branch there; the
remaining tiles of all ways are carried along.
-/

namespace WordStudy

/-- How much of a rack a word has to use. -/
inductive RackMode where
  /-- Every tile, exactly once. -/
  | anagram
  /-- Some of the tiles. -/
  | subanagram
  /-- Some of the tiles, for a word of `min` to `max` letters. -/
  | consist (min max : Nat)
  deriving DecidableEq, Repr

/-- A multiset of tiles. -/
structure Rack where
  /-- The letter tiles, in upper case. -/
  letters : List UInt8
  blanks : Nat
  classes : List LetterSet
  /-- The rack has a `*`. -/
  unlimited : Bool
  deriving DecidableEq, Repr

/-- The tiles that are left when a part of a word is spelled. -/
structure Tiles where
  letters : List UInt8
  blanks : Nat
  classes : List LetterSet
  deriving DecidableEq, Repr

def Tiles.isEmpty (tiles : Tiles) : Bool :=
  tiles.letters.isEmpty && tiles.blanks == 0 && tiles.classes.isEmpty

namespace Rack

/-! ## §1 Reading and measures -/

/-- The most tiles of one letter, and the most blanks. -/
def maxAlike : Nat := 255

/-- The most classes. -/
def maxClasses : Nat := 32

def lettersOf (tokens : List Token) : List UInt8 :=
  tokens.filterMap fun
    | .letter l => some l
    | _ => none

def classesOf (tokens : List Token) : List LetterSet :=
  tokens.filterMap fun
    | .oneOf set => some set
    | _ => none

/-- The rack of the tokens; their order does not matter. -/
def ofTokens (tokens : List Token) : Rack where
  letters := lettersOf tokens
  blanks := tokens.count .any
  classes := classesOf tokens
  unlimited := tokens.any Token.isStar

/-- The number of tiles, `*` apart. -/
def size (r : Rack) : Nat := r.letters.length + r.blanks + r.classes.length

/-- No tile is there more often than a rack may hold it. -/
def withinLimits (r : Rack) : Bool :=
  alphabet.all (fun l => r.letters.count l ≤ maxAlike) && r.blanks ≤ maxAlike &&
    r.classes.length ≤ maxClasses

/-- The rack that a text writes, `none` if it is malformed, empty or over the limits. -/
def read (text : String) : Option Rack :=
  match Token.read text with
  | none => none
  | some tokens =>
    let r := ofTokens tokens
    if !r.withinLimits || (r.size = 0 && !r.unlimited) then none else some r

/-- The length of the longest word, `none` if there is no bound. -/
def maxLength? (r : Rack) : RackMode → Option Nat
  | .consist _ max => some (if r.unlimited then max else min max r.size)
  | _ => if r.unlimited then none else some r.size

/-! ## §2 Spelling -/

def start (r : Rack) : Tiles := ⟨r.letters, r.blanks, r.classes⟩

/-- The ways to go on from `tiles` when `b` is to be spelled. -/
def take (unlimited : Bool) (tiles : Tiles) (b : UInt8) : List Tiles :=
  -- A letter of its own is spent first, then a class, then a blank.
  if tiles.letters.contains b then [{ tiles with letters := tiles.letters.erase b }]
  else
    match tiles.classes.eraseDups.filter (·.contains b) with
    | [] =>
      if 0 < tiles.blanks then [{ tiles with blanks := tiles.blanks - 1 }]
      else if unlimited then [tiles]
      else []
    -- Classes that are alike make one way only.
    | sets => sets.map fun set => { tiles with classes := tiles.classes.erase set }

/-- The remaining tiles of all ways to spell one byte more, `none` if there is no way. -/
def step (r : Rack) (ways : List Tiles) (b : UInt8) : Option (List Tiles) :=
  match (ways.flatMap fun tiles => take r.unlimited tiles b).eraseDups with
  | [] => none
  | ways => some ways

/-- A word of `length` letters, spelled in these ways, uses the rack as the mode asks. -/
def accepts (mode : RackMode) (ways : List Tiles) (length : Nat) : Bool :=
  if length = 0 || ways.isEmpty then false
  else
    match mode with
    | .anagram => ways.any Tiles.isEmpty
    | .subanagram => true
    | .consist min max => min ≤ length && length ≤ max

/-- **The rack spells the word** in the way that the mode asks; it never spells the empty
word. -/
def spells (r : Rack) (mode : RackMode) (w : Word) : Bool :=
  match w.foldlM r.step [r.start] with
  | some ways => accepts mode ways w.length
  | none => false

/-! ## §3 Literal letters -/

/-- For each byte of a word, whether one of the letter tiles `left` spells it, the tiles
being spent from the left. -/
def spendLetters : List UInt8 → Word → List Bool
  | _, [] => []
  | left, b :: w =>
    if left.contains b then true :: spendLetters (left.erase b) w
    else false :: spendLetters left w

/-- For each byte of the word, whether a letter tile spells it. -/
def literalLetters (r : Rack) (w : Word) : List Bool := spendLetters r.letters w

end Rack

end WordStudy
