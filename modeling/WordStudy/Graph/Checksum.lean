import WordStudy.Word.Basic

/-!
# The checksum of an image

A cyclic redundancy check of 16 bits over the polynomial `x^16 + x^12 + x^5 + 1`, the low bit
of each byte first, started with all ones and complemented at the end.
-/

namespace WordStudy

namespace Checksum

/-- The polynomial without its leading term, the low coefficient at the top. -/
def polynomial : BitVec 16 := 0x8408#16

/-- One bit leaves the register; if it is set, the polynomial is subtracted. -/
def shift (register : BitVec 16) : BitVec 16 :=
  if register.getLsbD 0 then (register >>> 1) ^^^ polynomial else register >>> 1

/-- The register after so many bits. -/
def shifts : Nat → BitVec 16 → BitVec 16
  | 0, register => register
  | n + 1, register => shifts n (shift register)

def feed (register : BitVec 16) (b : UInt8) : BitVec 16 :=
  shifts 8 (register ^^^ b.toBitVec.setWidth 16)

end Checksum

/-- **The checksum** of a byte string. -/
def checksum (bytes : List UInt8) : BitVec 16 :=
  ~~~(bytes.foldl Checksum.feed (BitVec.allOnes 16))

/-- The standard check value. -/
example : checksum [0x31, 0x32, 0x33, 0x34, 0x35, 0x36, 0x37, 0x38, 0x39] = 0x906E#16 := by
  decide +kernel

end WordStudy
