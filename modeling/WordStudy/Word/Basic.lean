import Std.Data.TreeMap
import WordStudy.Text.Utf8

/-!
# Words

A word is a **byte string**: the UTF-8 form of what was typed. Lengths count bytes, only the
26 ASCII letters have two cases, and words are ordered by their bytes. A vocabulary keeps its
words in upper case.
-/

namespace WordStudy

/-- A word, as the bytes of its text. -/
abbrev Word : Type := List UInt8

/-! ## §1 Letters -/

def isUpper (b : UInt8) : Bool := 0x41 ≤ b && b ≤ 0x5A

def isLower (b : UInt8) : Bool := 0x61 ≤ b && b ≤ 0x7A

/-- The upper-case form of a lower-case letter; any other byte is its own. -/
def upperByte (b : UInt8) : UInt8 := if isLower b then b - 0x20 else b

/-- The lower-case form of an upper-case letter; any other byte is its own. -/
def lowerByte (b : UInt8) : UInt8 := if isUpper b then b + 0x20 else b

/-- The 26 upper-case letters in order. -/
def alphabet : List UInt8 := (List.range 26).map fun i => UInt8.ofNat (0x41 + i)

/-! ## §2 Words and text -/

namespace Word

def ofText (text : String) : Word := Text.Utf8.bytesOf text

/-- The text of a word; bytes that form no character show as U+FFFD. -/
def text (w : Word) : String := Text.Utf8.textOf w

def upper (w : Word) : Word := w.map upperByte

/-- Every byte is below `0x80`. -/
def isAscii (w : Word) : Bool := w.all (· < 0x80)

/-- Order by bytes, a start of a word before the word. -/
def order (v w : Word) : Ordering := compare v w

def le (v w : Word) : Bool := (order v w).isLE

/-- `words` in the order of their bytes. -/
def sort (words : List Word) : List Word := words.mergeSort le

end Word

/-! ## §3 Small laws -/

/-- A property of bytes holds for all of them if it holds for the 256 numbers. -/
theorem byte_forall {p : UInt8 → Prop} (h : ∀ n : Fin 256, p (UInt8.ofFin n)) (b : UInt8) :
    p b := h b.toFin

/-- What is decided for each element of a list holds of all of them. -/
theorem forall_mem_of_all {α : Type} {l : List α} {p : α → Prop} [DecidablePred p]
    (h : (l.all fun a => decide (p a)) = true) : ∀ a ∈ l, p a :=
  fun a ha => of_decide_eq_true (List.all_eq_true.mp h a ha)

/-- What is decided for each two elements of two lists holds of all of them. -/
theorem forall_mem_of_all_all {α β : Type} {l : List α} {m : List β} {p : α → β → Prop}
    [∀ a b, Decidable (p a b)] (h : (l.all fun a => m.all fun b => decide (p a b)) = true) :
    ∀ a ∈ l, ∀ b ∈ m, p a b :=
  fun a ha => forall_mem_of_all (List.all_eq_true.mp h a ha)

@[simp] theorem upperByte_upperByte (b : UInt8) : upperByte (upperByte b) = upperByte b := by
  refine byte_forall (p := fun b => upperByte (upperByte b) = upperByte b) ?_ b
  decide +kernel

@[simp] theorem upperByte_lowerByte (b : UInt8) : upperByte (lowerByte b) = upperByte b := by
  refine byte_forall (p := fun b => upperByte (lowerByte b) = upperByte b) ?_ b
  decide +kernel

theorem upperByte_of_isUpper {b : UInt8} (h : isUpper b = true) : upperByte b = b := by
  revert h
  refine byte_forall (p := fun b => isUpper b = true → upperByte b = b) ?_ b
  decide +kernel

theorem mem_alphabet_iff (b : UInt8) : b ∈ alphabet ↔ isUpper b = true := by
  refine byte_forall (p := fun b => b ∈ alphabet ↔ isUpper b = true) ?_ b
  decide +kernel

@[simp] theorem Word.upper_upper (w : Word) : w.upper.upper = w.upper := by
  simp [Word.upper]

@[simp] theorem Word.length_upper (w : Word) : w.upper.length = w.length := by
  simp [Word.upper]

@[simp] theorem Word.upper_append (v w : Word) :
    Word.upper (v ++ w) = Word.upper v ++ Word.upper w := by
  simp [Word.upper]

/-- A word of upper-case letters is its own upper-case form. -/
theorem Word.upper_of_isUpper {w : Word} (h : ∀ b ∈ w, isUpper b = true) : w.upper = w := by
  induction w with
  | nil => rfl
  | cons b w ih =>
    have hb := upperByte_of_isUpper (h b (by simp))
    have hw := ih fun c hc => h c (by simp [hc])
    simp only [Word.upper, List.map_cons] at hw ⊢
    rw [hb, hw]

end WordStudy
