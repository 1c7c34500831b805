import BlockDir.Checksum.Basic
import BlockDir.Chunks
import BlockDir.Volume

/-!
# Outputs

An output collects the bytes of a file in blocks, all of them full but the last. Nothing is stored
before it is closed.
-/

namespace BlockDir

/-- A file being written. -/
structure Output where
  name : String
  blockSize : Nat
  /-- The blocks so far; only the last may have room. -/
  blocks : Array Bytes
  /-- How many bytes were written. -/
  position : Nat
  checksum : Checksum
  /-- How many bytes of memory the blocks take. -/
  allocated : Nat

namespace Output

/-- An output to which nothing was written. -/
def new (name : String) (blockSize : Nat) (checksum : Bool) : Output :=
  ⟨name, blockSize, #[], 0, Checksum.new checksum, 0⟩

/-- Fills the last block with `data`, and puts what is left into new blocks. -/
def fill (blockSize : Nat) (blocks : Array Bytes) (data : Bytes) : Array Bytes :=
  match blocks.back? with
  | some last =>
    let room := blockSize - last.length
    if room = 0 then blocks ++ chunks blockSize data
    else blocks.pop.push (last ++ data.take room) ++ chunks blockSize (data.drop room)
  | none => (chunks blockSize data).toArray

/-- Appends bytes. -/
def write (o : Output) (data : Bytes) : Output :=
  let blocks := fill o.blockSize o.blocks data
  { o with
    blocks
    position := o.position + data.length
    checksum := o.checksum.update data
    allocated := o.allocated + o.blockSize * (blocks.size - o.blocks.size) }

/-- The checksum of what was written, unless it is switched off. -/
def checksumValue (o : Output) : Except Error UInt32 :=
  match o.checksum.value with
  | some value => .ok value
  | none => .error (.checksumDisabled o.name)

end Output

end BlockDir
