import BlockDir.Error
import BlockDir.Text.Decimal

/-!
# Layout of files in tables

A file of `length` bytes is cut into blocks of `size` bytes, the last one possibly shorter. Its
length stands in the catalog as eight bytes, and block `index` of file `name` stands in the block
table under the key `@name:index`. Names are not restricted: the index is read after the last colon.
-/

namespace BlockDir.Layout

/-- The width of a stored length. -/
def lengthBytes : Nat := 8

/-- The largest number of blocks of one file. -/
def maxBlocks : Nat := 2147483647

/-- The key of one block in the block table. -/
def blockKey (name : String) (index : Nat) : Bytes :=
  64 :: Utf8.encode name ++ 58 :: Decimal.digits index

/-- Splits a byte string at its last colon. -/
def splitLastColon : Bytes → Option (Bytes × Bytes)
  | [] => none
  | byte :: rest =>
    match splitLastColon rest with
    | some (front, back) => some (byte :: front, back)
    | none => if byte = 58 then some ([], rest) else none

/-- The name and the index that a key stands for, if it is a block key. -/
def parseBlockKey (key : Bytes) : Option (String × Nat) :=
  match key with
  | 64 :: rest =>
    match splitLastColon rest with
    | some (name, index) =>
      match Utf8.decode? name, Decimal.read64? index with
      | some name, some index => some (name, index)
      | _, _ => none
    | none => none
  | _ => none

/-- How many blocks of `size` bytes it takes to hold `length` bytes. -/
def blockCount (length size : Nat) : Nat := (length + (size - 1)) / size

/-- How many bytes of a file of `length` bytes block `index` holds. -/
def blockLen (length size index : Nat) : Nat := min (length - index * size) size

/-- The number of blocks of a file; there is none in blocks of no bytes. -/
def countBlocks (length size : Nat) : Except Error Nat :=
  if size = 0 then .error (.misuse .zeroBlockSize) else .ok (blockCount length size)

/-- The number of blocks of a file, if it does not exceed `maxBlocks`. -/
def checkedCount (name : String) (length size : Nat) : Except Error Nat :=
  match countBlocks length size with
  | .error e => .error e
  | .ok count =>
    if maxBlocks < count then .error (.damaged (.tooManyBlocks name length count maxBlocks))
    else .ok count

/-- A length as it is stored. -/
def encodeLength (length : Nat) : Bytes := Bytes.bigEndian lengthBytes length

/-- The length that a stored value stands for. -/
def decodeLength (name : String) (stored : Bytes) : Except Error Nat :=
  if stored.length = lengthBytes then .ok stored.toNat
  else .error (.damaged (.lengthWidth name stored.length lengthBytes))

end BlockDir.Layout
