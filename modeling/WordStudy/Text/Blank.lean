/-!
# White space

The characters that separate the words of a line, and the cuts made along them. A line is
trimmed, split into its words, or cut behind its first word.
-/

namespace WordStudy.Text

/-- **White space**: every character that Unicode gives the property. -/
def isBlank (c : Char) : Bool :=
  let n := c.toNat
  (9 ≤ n && n ≤ 13) || n = 0x20 || n = 0x85 || n = 0xA0 || n = 0x1680 ||
    (0x2000 ≤ n && n ≤ 0x200A) || n = 0x2028 || n = 0x2029 || n = 0x202F || n = 0x205F ||
    n = 0x3000

/-- `text` without the white space at its two ends. -/
def trim (text : List Char) : List Char :=
  ((text.dropWhile isBlank).reverse.dropWhile isBlank).reverse

/-- The pieces of `text` between characters that satisfy `cut`; there is always one. -/
def splitBy (cut : Char → Bool) : List Char → List (List Char)
  | [] => [[]]
  | c :: rest =>
    if cut c then [] :: splitBy cut rest
    else
      match splitBy cut rest with
      | [] => [[c]]
      | piece :: pieces => (c :: piece) :: pieces

/-- The words of `text`, cut at white space. -/
def words (text : List Char) : List (List Char) :=
  (splitBy isBlank text).filter (!·.isEmpty)

/-- What stands before the first character that satisfies `cut` and what stands behind it,
`none` if no character does. -/
def cutAt (cut : Char → Bool) (text : List Char) : Option (List Char × List Char) :=
  match text.dropWhile (!cut ·) with
  | [] => none
  | _ :: rest => some (text.takeWhile (!cut ·), rest)

/-- The lists joined with `separator` between each two. -/
def join (separator : List Char) : List (List Char) → List Char
  | [] => []
  | [piece] => piece
  | piece :: next :: pieces => piece ++ separator ++ join separator (next :: pieces)

/-- The rest of `text` behind `start`, if it begins with `start`. -/
def behind (start text : List Char) : Option (List Char) :=
  match start, text with
  | [], text => some text
  | _ :: _, [] => none
  | s :: start, c :: text => if s = c then behind start text else none

/-- The pieces of `text` between occurrences of `separator`, read from the left. A separator
must not be empty; an empty one cuts nothing. -/
def splitOn (separator : List Char) (text : List Char) : List (List Char) :=
  go 0 [] text
where
  /-- `skip` characters belong to a separator that was found; `piece` is what was read since
  the last one, in reverse. -/
  go : Nat → List Char → List Char → List (List Char)
    | _, piece, [] => [piece.reverse]
    | skip + 1, piece, _ :: rest => go skip piece rest
    | 0, piece, c :: rest =>
      if separator ≠ [] ∧ (behind separator (c :: rest)).isSome then
        piece.reverse :: go (separator.length - 1) [] rest
      else go 0 (c :: piece) rest

end WordStudy.Text
