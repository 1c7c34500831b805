/-!
# Byte strings

Keys, fields, stored values and file contents are byte strings. They are kept as lists, so that
every law about them is a law about lists. The one number format shared by the whole library is
fixed-width big-endian: every byte string is the digits of the number it denotes
(`bigEndian_toNat`).
-/

namespace BlockDir

/-- A byte string. -/
abbrev Bytes := List UInt8

namespace Bytes

instance : LawfulBEq Bytes := inferInstance

/-- The `width` low base-256 digits of `n`, most significant first. -/
def bigEndian : (width n : Nat) → Bytes
  | 0, _ => []
  | width + 1, n => bigEndian width (n / 256) ++ [UInt8.ofNat (n % 256)]

/-- The number that a byte string denotes in base 256, most significant byte first. -/
def toNat (bytes : Bytes) : Nat := bytes.foldl (fun n byte => n * 256 + byte.toNat) 0

/-- The `width` low base-256 digits of `n`, least significant first. -/
def littleEndian : (width n : Nat) → Bytes
  | 0, _ => []
  | width + 1, n => UInt8.ofNat (n % 256) :: littleEndian width (n / 256)

/-- The number that a byte string denotes in base 256, least significant byte first. -/
def ofLittleEndian : Bytes → Nat
  | [] => 0
  | byte :: rest => byte.toNat + 256 * ofLittleEndian rest

@[simp] theorem length_bigEndian (width n : Nat) : (bigEndian width n).length = width := by
  induction width generalizing n with
  | zero => rfl
  | succ width ih => simp [bigEndian, ih]

@[simp] theorem length_littleEndian (width n : Nat) : (littleEndian width n).length = width := by
  induction width generalizing n with
  | zero => rfl
  | succ width ih => simp [littleEndian, ih]

theorem toNat_append_singleton (bytes : Bytes) (byte : UInt8) :
    toNat (bytes ++ [byte]) = toNat bytes * 256 + byte.toNat := by
  simp [toNat]

/-- Every byte string is the digits of the number it denotes. -/
theorem bigEndian_toNat (bytes : Bytes) : bigEndian bytes.length (toNat bytes) = bytes := by
  suffices h : ∀ reversed : Bytes,
      bigEndian reversed.reverse.length (toNat reversed.reverse) = reversed.reverse by
    simpa using h bytes.reverse
  intro reversed
  induction reversed with
  | nil => rfl
  | cons byte rest ih =>
    have hbyte := byte.toNat_lt
    rw [List.reverse_cons, toNat_append_singleton, List.length_append, List.length_singleton,
      bigEndian]
    have hdiv : (toNat rest.reverse * 256 + byte.toNat) / 256 = toNat rest.reverse := by omega
    have hmod : (toNat rest.reverse * 256 + byte.toNat) % 256 = byte.toNat := by omega
    rw [hdiv, hmod, ih]
    simp

end Bytes

end BlockDir
