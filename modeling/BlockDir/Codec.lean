import BlockDir.Error
import BlockDir.Snappy.Compressor

/-!
# Block codecs

How a block is stored: as it is, or as a raw Snappy stream. A store uses one codec throughout. The
compressor that makes the streams is a parameter (`Codec.encodeWith`), and so is what it makes of a
block; how large a block may be is the same for all compressors.
-/

namespace BlockDir

/-- The form in which blocks are stored. -/
inductive Codec where
  | plain
  | snappy

namespace Codec

/-- The codec of a store that compresses or does not. -/
def ofCompress (compress : Bool) : Codec := if compress then snappy else plain

/-- Puts a block into its stored form with a compressor, if there can be room for the stream. -/
def encodeWith (compress : Bytes → Bytes) : Codec → Bytes → Except Error Bytes
  | plain, block => .ok block
  | snappy, block =>
    if Snappy.maxLength < Snappy.room block.length then .error (.unencodable block.length)
    else .ok (compress block)

/-- Puts a block into its stored form with the compressor of this library. -/
def encode (codec : Codec) (block : Bytes) : Except Error Bytes :=
  codec.encodeWith Snappy.encode block

/-- The stored form of a block that is not too large. -/
def form : Codec → Bytes → Bytes
  | plain, block => block
  | snappy, block => Snappy.encode block

/-- The block that a stored form stands for. -/
def decode : Codec → Bytes → Except Error Bytes
  | plain, stored => .ok stored
  | snappy, stored => (Snappy.decode stored).mapError fun e => .undecodable (.snappy e)

end Codec

end BlockDir
