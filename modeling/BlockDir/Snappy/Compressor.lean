import BlockDir.Snappy.Element
import Std.Data.HashMap.Basic

/-!
# A compressor

Which elements a compressor picks for its data is left to it: the reader takes every row of elements
that makes up the data. This is one compressor, for stores that bring none of their own. It walks the
data once, remembers where each group of four bytes was seen last, and where that place repeats the
bytes ahead it emits a copy; all other bytes go into literals. Data of at most `shortest` bytes is one
literal. Other compressors find other copies, so nothing but that literal is to be expected of a stream.
-/

namespace BlockDir.Snappy

/-- Data up to this many bytes is never searched for repetitions. -/
def shortest : Nat := 16

/-- The longest copy that one element can carry. -/
def longestCopy : Nat := 64

/-- The furthest that a copy reaches back. -/
def furthest : Nat := 65535

/-- The places of earlier groups of four bytes: their position and the data from there on. -/
abbrev Dictionary := Std.HashMap UInt32 (Nat × Bytes)

/-- How far two byte strings agree, up to `limit`. -/
def agreement : (limit : Nat) → Bytes → Bytes → Nat
  | limit + 1, a :: as, b :: bs => if a = b then agreement limit as bs + 1 else 0
  | _, _, _ => 0

/-- The number of a group of four bytes in the dictionary. -/
def groupKey (a b c d : UInt8) : UInt32 :=
  a.toUInt32 ||| (b.toUInt32 <<< 8) ||| (c.toUInt32 <<< 16) ||| (d.toUInt32 <<< 24)

/-- The number of the group that the data begins with, if it has four bytes. -/
def leadingKey? : Bytes → Option UInt32
  | a :: b :: c :: d :: _ => some (groupKey a b c d)
  | _ => none

/-- The copy that produces the front of `rest`, which stands at `position`. -/
def findCopy? (seen : Dictionary) (position : Nat) (rest : Bytes) : Option (Nat × Nat) :=
  match (leadingKey? rest).bind (seen[·]?) with
  | none => none
  | some (earlier, data) =>
    let offset := position - earlier
    let length := agreement longestCopy data rest
    if 4 ≤ length && 0 < offset && offset ≤ furthest then some (offset, length) else none

/-- Remembers the group that `rest` begins with. -/
def remember (seen : Dictionary) (position : Nat) (rest : Bytes) : Dictionary :=
  match leadingKey? rest with
  | some key => seen.insert key (position, rest)
  | none => seen

/-- The pending bytes, collected back to front, as an element before `later`. -/
def flush (pending : Bytes) (later : List Element) : List Element :=
  if pending.isEmpty then later else .literal pending.reverse :: later

/-- The elements, last one first, for `rest` at `position`; `pending` bytes before it, collected
back to front, are not in an element yet. -/
def search (seen : Dictionary) (position : Nat) (pending : Bytes) (found : List Element)
    (rest : Bytes) : List Element :=
  match rest with
  | [] => flush pending found
  | byte :: tail =>
    match findCopy? seen position (byte :: tail) with
    | some (offset, length) =>
      search (remember seen position (byte :: tail)) (position + (length - 1 + 1)) []
        (.copy offset (length - 1 + 1) :: flush pending found) (tail.drop (length - 1))
    | none =>
      search (remember seen position (byte :: tail)) (position + 1) (byte :: pending) found tail
termination_by rest.length
decreasing_by all_goals grind

/-- A row of elements that produces `data`. -/
def elements (data : Bytes) : List Element :=
  if data.isEmpty then []
  else if data.length ≤ shortest then [.literal data]
  else (search ∅ 0 [] [] data).reverse

/-- The stream that this compressor makes of `data`. -/
def encode (data : Bytes) : Bytes :=
  Varint.encode data.length ++ (elements data).flatMap Element.write

end BlockDir.Snappy
