/-!
# Ranges of characters

Classes of characters are kept as tables: ranges of character numbers, both ends included and in
order.
-/

namespace WordStudy.Text

/-- `n` lies in one of the ranges. -/
def inRanges (ranges : List (Nat × Nat)) (n : Nat) : Bool :=
  ranges.any fun range => range.1 ≤ n && n ≤ range.2

end WordStudy.Text
