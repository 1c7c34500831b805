/-!
# Words

Whole numbers in words of a fixed number of bits. A word is held as the natural number that its bits
denote; a signed number is stored as the word with its two's complement bit pattern.
-/

namespace BlockDir.Word

/-- The word with the two's complement bit pattern of the low bits of `i`. -/
def ofInt (bits : Nat) (i : Int) : Nat := (BitVec.ofInt bits i).toNat

/-- The signed number that the low bits of `n` stand for. -/
def toInt (bits n : Nat) : Int := (BitVec.ofNat bits n).toInt

/-- A number that is stored and read back is the one its word stands for. -/
theorem toInt_ofInt (bits : Nat) (i : Int) :
    toInt bits (ofInt bits i) = (BitVec.ofInt bits i).toInt := by
  rw [toInt, ofInt, BitVec.ofNat_toNat, BitVec.setWidth_eq]

end BlockDir.Word
