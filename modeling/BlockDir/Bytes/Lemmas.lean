import BlockDir.Bytes
import Mathlib

/-!
# Laws of byte strings as numbers

The digits of a number, read back, give the number modulo the range of the width, in either byte
order (`toNat_bigEndian`, `ofLittleEndian_littleEndian`).
-/

namespace BlockDir.Bytes

/-- Reading back the low digits gives the number modulo the width. -/
theorem toNat_bigEndian (width n : Nat) : toNat (bigEndian width n) = n % 256 ^ width := by
  induction width generalizing n with
  | zero => simp [bigEndian, toNat, Nat.mod_one]
  | succ width ih =>
    have hlow : (UInt8.ofNat (n % 256)).toNat = n % 256 := by
      simp
    rw [bigEndian, toNat_append_singleton, ih, hlow, Nat.pow_succ, Nat.mul_comm (256 ^ width),
      Nat.mod_mul]
    omega

/-- The same with the least significant digit first. -/
theorem ofLittleEndian_littleEndian (width n : Nat) :
    ofLittleEndian (littleEndian width n) = n % 256 ^ width := by
  induction width generalizing n with
  | zero => simp [littleEndian, ofLittleEndian, Nat.mod_one]
  | succ width ih =>
    have hlow : (UInt8.ofNat (n % 256)).toNat = n % 256 := by simp
    rw [littleEndian, ofLittleEndian, hlow, ih, Nat.pow_succ, Nat.mul_comm (256 ^ width),
      Nat.mod_mul]

end BlockDir.Bytes
