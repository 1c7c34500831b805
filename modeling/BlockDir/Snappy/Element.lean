import BlockDir.Varint

/-!
# Elements of a raw Snappy stream

After a header with the length of the data, a stream is a row of elements: a literal carries bytes
of its own, a copy repeats bytes of the output so far, and may run into the bytes it is just
producing. `Element.replay` is the meaning of an element, `Element.write` its stored form.
-/

namespace BlockDir.Snappy

/-- The largest amount of data that a stream may announce. -/
def maxLength : Nat := 4294967295

/-- The room that a compressor reserves for the stream of `n` bytes, however it comes out. -/
def room (n : Nat) : Nat := 32 + n + n / 6

/-- The most data that a compressor takes: the room for it may not be larger than any data. -/
def longest : Nat := 3681400511

theorem room_le_iff {n : Nat} : room n ≤ maxLength ↔ n ≤ longest := by
  unfold room maxLength longest
  omega

/-- One instruction to the reader of a stream. -/
inductive Element where
  /-- Append these bytes. -/
  | literal (bytes : Bytes)
  /-- Append `length` bytes, each one the byte `offset` places before it. -/
  | copy (offset length : Nat)

/-- Appends, `length` times, the byte `offset` places before the end. -/
def copyBack (offset : Nat) : (length : Nat) → Array UInt8 → Array UInt8
  | 0, out => out
  | length + 1, out => copyBack offset length (out.push (out.getD (out.size - offset) 0))

namespace Element

/-- The output after an element. -/
def replay (out : Array UInt8) : Element → Array UInt8
  | literal bytes => out ++ bytes
  | copy offset length => copyBack offset length out

/-- How many bytes the length of a literal takes beside its tag. -/
def lengthBytes (n : Nat) : Nat :=
  if n < 60 then 0
  else if n < 256 then 1
  else if n < 65536 then 2
  else if n < 16777216 then 3
  else 4

/-- The tag of a literal whose length less one is `n`, with its length bytes. -/
def writeLength (n : Nat) : Bytes :=
  let width := lengthBytes n
  if width = 0 then [UInt8.ofNat (n * 4)]
  else UInt8.ofNat ((59 + width) * 4) :: Bytes.littleEndian width n

/-- The stored form of an element. Copies are written with a two-byte offset. -/
def write : Element → Bytes
  | literal bytes => writeLength (bytes.length - 1) ++ bytes
  | copy offset length => UInt8.ofNat ((length - 1) * 4 + 2) :: Bytes.littleEndian 2 offset

end Element

end BlockDir.Snappy
