import BlockDir.Cursor.Reader
import BlockDir.Word

/-!
# Typed values in files

How numbers and texts stand in a file: fixed-width numbers big-endian, variable-length numbers in
seven-bit groups, texts as their length in bytes and then their UTF-8 form. `Datum.encode` writes a
value, `Shape.read` reads one of a given shape.
-/

namespace BlockDir

/-- A value that can be written to a file. -/
inductive Datum where
  | byte (value : UInt8)
  | bytes (value : Bytes)
  | int16 (value : Int)
  | int32 (value : Int)
  | int64 (value : Int)
  | varint32 (value : Int)
  | varint64 (value : Int)
  | text (value : String)

/-- The shape of a value that can be read from a file. -/
inductive Shape where
  | byte
  | bytes (count : Nat)
  | int16
  | int32
  | int64
  | varint32
  | varint64
  | text

/-- The longest text, in bytes. -/
def maxTextLength : Nat := 2147483647

/-- The stored form of a value. -/
def Datum.encode : Datum → Except Error Bytes
  | byte value => .ok [value]
  | bytes value => .ok value
  | int16 value => .ok (Bytes.bigEndian 2 (Word.ofInt 16 value))
  | int32 value => .ok (Bytes.bigEndian 4 (Word.ofInt 32 value))
  | int64 value => .ok (Bytes.bigEndian 8 (Word.ofInt 64 value))
  | varint32 value => .ok (Varint.encode (Word.ofInt 32 value))
  | varint64 value => .ok (Varint.encode (Word.ofInt 64 value))
  | text value =>
    let bytes := Utf8.encode value
    if maxTextLength < bytes.length then .error (.argument (.longString bytes.length))
    else .ok (Varint.encode bytes.length ++ bytes)

namespace Reader

/-- Reads a fixed-width number. -/
def readFixed (width : Nat) : ReaderM Int := do
  return Word.toInt (8 * width) (Bytes.toNat (← readBytes width))

/-- Reads the groups of a variable-length number, `none` if there are more than `limit`. -/
def readGroups : (limit : Nat) → ReaderM (Option Nat)
  | 0 => pure none
  | limit + 1 => do
    let byte ← readByte
    if Varint.isOpen byte then
      return (← readGroups limit).map (Varint.group byte + 128 * ·)
    else
      return some (Varint.group byte)

/-- Reads a variable-length number of at most `limit` groups into `bits` bits; what the groups hold
beyond that is dropped. -/
def readVarint (limit bits : Nat) : ReaderM Int := do
  match ← readGroups limit with
  | some n => return Word.toInt bits n
  | none => throw (.undecodable (.longVarint limit))

/-- Reads a variable-length number of 32 bits. -/
def readVarint32 : ReaderM Int := readVarint 5 32

/-- Reads a variable-length number of 64 bits. -/
def readVarint64 : ReaderM Int := readVarint 10 64

/-- Reads a text. -/
def readText : ReaderM String := do
  let length ← readVarint32
  if length < 0 then
    throw (.undecodable (.negativeLength length))
  else
    give ((Utf8.decode (← readBytes length.toNat)).mapError fun e => .undecodable (.notUtf8 e))

end Reader

/-- Reads a value of a given shape. -/
def Shape.read : Shape → ReaderM Datum
  | byte => .byte <$> Reader.readByte
  | bytes count => .bytes <$> Reader.readBytes count
  | int16 => .int16 <$> Reader.readFixed 2
  | int32 => .int32 <$> Reader.readFixed 4
  | int64 => .int64 <$> Reader.readFixed 8
  | varint32 => .varint32 <$> Reader.readVarint32
  | varint64 => .varint64 <$> Reader.readVarint64
  | text => .text <$> Reader.readText

end BlockDir
