import WordStudy.Graph.Checksum
import WordStudy.Graph.Decode
import WordStudy.Graph.Insert
import WordStudy.Graph.Merge
import WordStudy.Graph.Query

/-!
# Vocabularies

A vocabulary is a word graph and, if one was read, a second graph of the **same words spelled
backwards**, which serves patterns that end in letters. Which graph answers a query is never
seen in the answer.
-/

namespace WordStudy

/-- A set of words to search in. -/
structure Vocabulary where
  forward : WordGraph
  backward : Option WordGraph
  deriving Repr

namespace Vocabulary

def empty : Vocabulary := ⟨.empty, none⟩

/-- The word is in the vocabulary, in any case. -/
def contains (v : Vocabulary) (w : Word) : Bool := v.forward.contains w.upper

/-- Add a word in upper case; tell whether it is new. -/
def add (v : Vocabulary) (w : Word) : Vocabulary × Bool :=
  match v.forward.insert w.upper with
  | (forward, true) =>
    (⟨forward, v.backward.map fun g => (g.insert w.upper.reverse).1⟩, true)
  | (_, false) => (v, false)

def wordCount (v : Vocabulary) : Nat := v.forward.wordCount

/-- All words in the order of their bytes. -/
def words (v : Vocabulary) : List Word := v.forward.words

/-- The vocabulary with equal nodes merged in both graphs. -/
def merge (v : Vocabulary) : Vocabulary := ⟨v.forward.merge, v.backward.map WordGraph.merge⟩

/-- Add words and count the new ones. -/
def addAll (v : Vocabulary) (words : List Word) : Vocabulary × Nat :=
  words.foldl
    (fun (v, count) w =>
      match v.add w with
      | (v, true) => (v, count + 1)
      | (v, false) => (v, count))
    (v, 0)

/-- Add words, merge, and count the new ones. -/
def importWords (v : Vocabulary) (words : List Word) : Vocabulary × Nat :=
  let (v, count) := v.addAll words
  (v.merge, count)

/-! ## §1 Images -/

/-- The graph of words that are each spelled backwards in `g`. -/
def turned (g : WordGraph) : WordGraph :=
  (g.words.foldl (fun turned w => (turned.insert w.reverse).1) WordGraph.empty).merge

/-- **The vocabulary of an image.** A checksum, if given, is compared first. An image of words
spelled backwards is kept as the backward graph, and a forward one is made of it. -/
def ofImage (bytes : List UInt8) (backwards : Bool) (expected : Option (BitVec 16)) :
    Except ImageFault Vocabulary :=
  match expected.filter (· != checksum bytes) with
  | some expected => .error (.wrongChecksum expected (checksum bytes))
  | none => do
    let decoded ← Image.decode bytes
    if backwards then pure ⟨turned decoded, some decoded⟩ else pure ⟨decoded, none⟩

/-- The image of the forward graph, merged. -/
def image (v : Vocabulary) : Except ImageFault (List UInt8) := Image.encode v.forward.merge

/-! ## §2 Searching -/

/-- The words that answer a query, in the order of their bytes. -/
def run (v : Vocabulary) (q : GraphQuery) : List Word :=
  match v.backward.filter fun _ => q.prefersReverse with
  | some g => Word.sort (((q.reversed.run g.root.edges).map List.reverse).filter q.allows)
  | none => (q.run v.forward.root.edges).filter q.allows

/-- **The words that satisfy the patterns, racks and lengths** among the conditions; other
conditions do not matter. A malformed text is satisfied by no word. -/
def search (v : Vocabulary) (conditions : List Condition) : List Word :=
  match GraphQuery.ofConditions conditions with
  | some q => v.run q
  | none => []

/-- The words of `search`, with the letters that wildcards, blanks and classes filled in
marked. -/
def searchMarked (v : Vocabulary) (conditions : List Condition) : List Word :=
  match GraphQuery.ofConditions conditions with
  | some q => (v.run q).map q.markWildcards
  | none => []

/-! ## §3 Hooks -/

/-- The letters that make a word when put in front of `w`, in lower case and in order. -/
def frontHooks (v : Vocabulary) (w : Word) : String :=
  String.ofList ((alphabet.filter fun l => v.contains (l :: w)).map fun l =>
    Char.ofNat (lowerByte l).toNat)

/-- The bytes that make a word when put behind `w`, in lower case and in order. -/
def backHooks (v : Vocabulary) (w : Word) : String :=
  match v.forward.walk w.upper with
  | none => ""
  | some node =>
    String.ofList ((node.edges.toList.filter (·.2.mark.terminal)).map fun (l, _) =>
      Char.ofNat (lowerByte l).toNat)

/-- The word is a word without its first byte, and has more than that. -/
def isFrontHook (v : Vocabulary) (w : Word) : Bool := 1 < w.length && v.contains w.tail

/-- The word is a word without its last byte, and has more than that. -/
def isBackHook (v : Vocabulary) (w : Word) : Bool := 1 < w.length && v.contains w.dropLast

end Vocabulary

end WordStudy
