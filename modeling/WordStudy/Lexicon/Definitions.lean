import WordStudy.Text.Blank
import WordStudy.Text.TagName
import WordStudy.Word.Basic

/-!
# Definitions

A definition is a list of **senses**, written with ` / ` between them. A sense may carry a
tag, its part of speech, as in `to vomit [v CATTED]`; senses are grouped by their tags, in the
order of the tags. A sense may link to another word, as in `{CAT=n}` or `{CAT}`.

When links are **resolved**, each is replaced by the word and its first sense with that tag,
or else its first sense. Links inside that sense are not followed but reduced to their words.
-/

namespace WordStudy

open Text

def senseSeparator : List Char := [' ', '/', ' ']

/-- The senses of a word that have one tag. -/
structure TaggedSenses where
  tag : String
  senses : List String
  deriving DecidableEq, Repr

/-- A piece of a text with links. -/
inductive LinkPart where
  | plain (c : Char)
  | link (word : List Char) (tag : Option (List Char))
  deriving DecidableEq, Repr

/-- The definitions of words in upper case. -/
structure Definitions where
  entries : Std.TreeMap Word (List TaggedSenses)

namespace Definitions

/-! ## §1 Senses -/

/-- The tag of a sense: the first tag behind an opening bracket, empty if there is none. -/
def tagOf : List Char → List Char
  | [] => []
  | c :: rest =>
    let tag := (spanTag rest).1
    if c = '[' && !tag.isEmpty then tag else tagOf rest

/-- Put a sense behind those that have its tag. -/
def insertSense (tag sense : String) : List TaggedSenses → List TaggedSenses
  | [] => [⟨tag, [sense]⟩]
  | group :: groups =>
    if group.tag = tag then ⟨tag, group.senses ++ [sense]⟩ :: groups
    else if tag < group.tag then ⟨tag, [sense]⟩ :: group :: groups
    else group :: insertSense tag sense groups

/-- The senses of a definition, grouped by their tags. -/
def group (definition : List Char) : List TaggedSenses :=
  (splitOn senseSeparator definition).foldl
    (fun groups sense =>
      insertSense (String.ofList (tagOf sense)) (String.ofList sense) groups)
    []

def empty : Definitions := ⟨∅⟩

def size (d : Definitions) : Nat := d.entries.size

/-- Add the definition of a word in place of an earlier one. Nothing is added for the empty
word, or if the definition is blank. -/
def add (d : Definitions) (w : Word) (definition : String) : Definitions :=
  let text := trim definition.toList
  if w.isEmpty || text.isEmpty then d else ⟨d.entries.insert w.upper (group text)⟩

/-- The word, in any case, has a definition. -/
def contains (d : Definitions) (w : Word) : Bool := d.entries.contains w.upper

def groups (d : Definitions) (w : Word) : List TaggedSenses := (d.entries[w.upper]?).getD []

def senses (d : Definitions) (w : Word) : List String := (d.groups w).flatMap (·.senses)

/-- The tags are the same but for the case of ASCII letters. -/
def sameTag (a b : String) : Bool := a.toLower == b.toLower

/-- The senses of a word with a tag in either case. Of tags that differ in case only, the
first one counts. -/
def sensesFor (d : Definitions) (w : Word) (tag : String) : List String :=
  ((d.groups w).find? fun group => sameTag group.tag tag).elim [] (·.senses)

/-- **The definition of a word**, its senses in the order of their tags. -/
def text? (d : Definitions) (w : Word) : Option String :=
  match d.senses w with
  | [] => none
  | senses => some ((String.ofList senseSeparator).intercalate senses)

/-! ## §2 Links -/

/-- The link that begins behind an opening brace, and the number of characters that it
takes. -/
def linkAt (text : List Char) : Option (LinkPart × Nat) :=
  match spanTag text with
  -- The word ends at its brace, or at the sign behind which a tag follows.
  | ([], _) => none
  | (word, '\x7d' :: _) => some (.link word none, word.length + 1)
  | (word, '=' :: rest) =>
    match spanTag rest with
    | ([], _) => none
    | (tag, '\x7d' :: _) => some (.link word (some tag), word.length + tag.length + 2)
    | _ => none
  | _ => none

/-- The parts of a text of which the first `skip` characters belong to a link. -/
def partsFrom : Nat → List Char → List LinkPart
  | _, [] => []
  | skip + 1, _ :: rest => partsFrom skip rest
  | 0, c :: rest =>
    if c = '\x7b' then
      match linkAt rest with
      | some (link, length) => link :: partsFrom length rest
      -- A brace that opens no link is shown as it is.
      | none => .plain c :: partsFrom 0 rest
    else .plain c :: partsFrom 0 rest

def parts (text : List Char) : List LinkPart := partsFrom 0 text

def upperText (text : List Char) : List Char := text.map Char.toUpper

/-- The text with its links reduced to their words. -/
def stripLinks (text : List Char) : List Char :=
  (parts text).flatMap fun
    | .plain c => [c]
    | .link word _ => upperText word

/-- The sense that a link shows: the first one with its tag, or else the first one. -/
def linkedSense (d : Definitions) (word : List Char) (tag : Option (List Char)) : Option String :=
  let w := Word.ofText (String.ofList word)
  (tag.bind fun tag => (d.sensesFor w (String.ofList tag)).head?).or (d.senses w).head?

def resolveLink (d : Definitions) (word : List Char) (tag : Option (List Char)) : List Char :=
  match d.linkedSense word tag with
  | some sense => upperText word ++ [',', ' '] ++ stripLinks sense.toList
  | none => upperText word

/-- **The text with its links resolved**, each sense on a line of its own. -/
def resolveLinks (d : Definitions) (text : String) : String :=
  let resolved := (parts text.toList).flatMap fun
    | .plain c => [c]
    | .link word tag => d.resolveLink word tag
  String.ofList (join ['\n'] (splitOn senseSeparator resolved))

/-- The definition of a word for display, or as it is stored. -/
def render (d : Definitions) (w : Word) (resolve : Bool) : Option String :=
  (d.text? w).map fun text => if resolve then d.resolveLinks text else text

end Definitions

end WordStudy
