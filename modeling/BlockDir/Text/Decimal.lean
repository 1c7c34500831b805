import BlockDir.Bytes

/-!
# Decimal numbers in byte strings

`digits` writes a number in decimal without leading zeros. `read64?` reads one: an optional single
plus sign, then at least one digit, leading zeros allowed, and a value of at most 64 bits.
-/

namespace BlockDir.Decimal

/-- The largest number of 64 bits. -/
def max64 : Nat := 18446744073709551615

/-- The ASCII digit of a number below ten. -/
def digit (n : Nat) : UInt8 := UInt8.ofNat (48 + n)

/-- The decimal digits of `n`, most significant first. -/
def digits (n : Nat) : Bytes :=
  if n < 10 then [digit n] else digits (n / 10) ++ [digit (n % 10)]
termination_by n

/-- Whether a byte is an ASCII digit. -/
def isDigit (byte : UInt8) : Bool := 48 ≤ byte && byte ≤ 57

/-- The number that a row of digits denotes. -/
def value (bytes : Bytes) : Nat := bytes.foldl (fun n byte => n * 10 + (byte.toNat - 48)) 0

/-- The number that a row of digits denotes, or `limit` if that is less. Long rows cost no more than
their length. -/
def valueUpTo (limit : Nat) (bytes : Bytes) : Nat :=
  bytes.foldl (fun n byte => min limit (n * 10 + (byte.toNat - 48))) 0

theorem valueUpTo_eq (limit : Nat) (bytes : Bytes) :
    valueUpTo limit bytes = min limit (value bytes) := by
  suffices h : ∀ n, bytes.foldl (fun n byte => min limit (n * 10 + (byte.toNat - 48))) (min limit n)
      = min limit (bytes.foldl (fun n byte => n * 10 + (byte.toNat - 48)) n) by
    simpa [valueUpTo, value] using h 0
  induction bytes with
  | nil => simp
  | cons byte rest ih =>
    intro n
    rw [List.foldl_cons, List.foldl_cons, ← ih]
    congr 1
    omega

/-- A non-empty row of digits as a number of at most 64 bits. -/
def readDigits64? (bytes : Bytes) : Option Nat :=
  if !bytes.isEmpty && bytes.all isDigit then
    some (valueUpTo (max64 + 1) bytes) |>.filter (· ≤ max64)
  else none

/-- What a row of digits is read as. -/
theorem readDigits64?_eq (bytes : Bytes) :
    readDigits64? bytes =
      if !bytes.isEmpty && bytes.all isDigit && value bytes ≤ max64 then some (value bytes)
      else none := by
  unfold readDigits64?
  rw [valueUpTo_eq]
  by_cases h : value bytes ≤ max64
  · have : min (max64 + 1) (value bytes) = value bytes := by omega
    simp [this, h, Option.filter]
  · have : min (max64 + 1) (value bytes) = max64 + 1 := by omega
    simp [this, h, Option.filter]

/-- A number of at most 64 bits, with at most one plus sign before it. -/
def read64? (bytes : Bytes) : Option Nat :=
  match bytes with
  | 43 :: rest => readDigits64? rest
  | _ => readDigits64? bytes

end BlockDir.Decimal
