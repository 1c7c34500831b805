import BlockDir.Bytes

/-!
# CRC-32

The cyclic redundancy check of IEEE 802.3 in its reflected form: a 32-bit register that starts at
all ones, takes in one byte at a time, and is complemented at the end. Main statement:
`register_append`, so a check may be taken over a stream piece by piece.
-/

namespace BlockDir.Crc32

/-- The reflected generator polynomial. -/
def polynomial : UInt32 := 0xEDB88320

/-- The register before any byte. -/
def start : UInt32 := 0xFFFFFFFF

/-- One step of the division. -/
def shift (register : UInt32) : UInt32 :=
  if register &&& 1 = 1 then (register >>> 1) ^^^ polynomial else register >>> 1

/-- The register after one more byte. -/
def feed (register : UInt32) (byte : UInt8) : UInt32 :=
  Nat.repeat shift 8 (register ^^^ byte.toUInt32)

/-- The register after a byte string. -/
def register (r : UInt32) (bytes : Bytes) : UInt32 := bytes.foldl feed r

/-- The check value that a register stands for. -/
def finish (register : UInt32) : UInt32 := ~~~register

/-- The check value of a byte string. -/
def checksum (bytes : Bytes) : UInt32 := finish (register start bytes)

/-- Feeding two byte strings in turn is feeding their concatenation. -/
theorem register_append (r : UInt32) (a b : Bytes) :
    register r (a ++ b) = register (register r a) b := List.foldl_append

end BlockDir.Crc32
