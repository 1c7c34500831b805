import BlockDir.Bytes

/-!
# Variable-length numbers

A number as seven-bit groups, low group first, every group but the last with its high bit set.
Signed numbers travel as the unsigned number of the same bit pattern.
-/

namespace BlockDir.Varint

/-- The shortest row of groups for `n`. -/
def encode (n : Nat) : Bytes :=
  if n < 128 then [UInt8.ofNat n] else UInt8.ofNat (n % 128 + 128) :: encode (n / 128)
termination_by n

/-- Whether more groups follow. -/
def isOpen (byte : UInt8) : Bool := 128 ≤ byte.toNat

/-- The seven payload bits of a group. -/
def group (byte : UInt8) : Nat := byte.toNat % 128

/-- The number that a row of groups denotes, of any size. -/
def value : Bytes → Nat
  | [] => 0
  | byte :: rest => group byte + 128 * value rest

/-- A group that more groups follow. -/
theorem group_open {n : Nat} :
    isOpen (UInt8.ofNat (n % 128 + 128)) = true ∧
      group (UInt8.ofNat (n % 128 + 128)) = n % 128 := by
  have hbyte : (UInt8.ofNat (n % 128 + 128)).toNat = n % 128 + 128 := by
    rw [UInt8.toNat_ofNat']
    omega
  rw [isOpen, group, hbyte]
  exact ⟨by simp, by omega⟩

/-- A last group. -/
theorem group_last {n : Nat} (h : n < 128) :
    isOpen (UInt8.ofNat n) = false ∧ group (UInt8.ofNat n) = n := by
  have hbyte : (UInt8.ofNat n).toNat = n := by
    rw [UInt8.toNat_ofNat']
    omega
  rw [isOpen, group, hbyte]
  exact ⟨by simp; omega, by omega⟩

/-- What is written for a number denotes it. -/
theorem value_encode (n : Nat) : value (encode n) = n := by
  fun_induction encode n with
  | case1 n hsmall => rw [value, (group_last hsmall).2, value, Nat.mul_zero, Nat.add_zero]
  | case2 n hlarge ih =>
    rw [value, group_open.2, ih]
    omega

end BlockDir.Varint
