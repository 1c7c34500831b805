import BlockDir.Volume

/-!
# Read cursors

A read cursor is a view of a part of a loaded file, with a position of its own. Slices and copies
share the file but nothing else. A failing call leaves the cursor where it was; a byte string is
read whole or not at all.
-/

namespace BlockDir

namespace LoadedFile

/-- The pieces, last one first, of `count` bytes from `position` on, after those already found. -/
def gather (file : LoadedFile) (found : List Bytes) (position count : Nat) :
    Except Error (List Bytes) :=
  if _hcount : count = 0 then .ok found
  else
    let index := position / file.blockSize
    match file.block index with
    | .error e => .error e
    | .ok block =>
      let piece := (block.drop (position % file.blockSize)).take count
      if _hpiece : piece = [] then .error (.misuse (.noSuchBlock index file.blocks.size))
      else file.gather (piece :: found) (position + piece.length) (count - piece.length)
termination_by count
decreasing_by
  exact Nat.sub_lt (Nat.pos_of_ne_zero _hcount) (List.length_pos_iff.2 _hpiece)

/-- `count` bytes of the file from `position` on. -/
def bytesAt (file : LoadedFile) (position count : Nat) : Except Error Bytes :=
  (file.gather [] position count).map fun pieces => pieces.reverse.flatten

end LoadedFile

/-- A view of `length` bytes of a file from `base` on. -/
structure Reader where
  description : String
  /-- The file, until the cursor is closed. -/
  file : Option LoadedFile
  base : Nat
  length : Nat
  /-- The position inside the view. -/
  position : Nat

/-- An action of a read cursor. -/
abbrev ReaderM := EStateM Error Reader

namespace Reader

/-- A cursor at the start of a file. -/
def new (description : String) (file : LoadedFile) : Reader :=
  ⟨description, some file, 0, file.length, 0⟩

/-- How many bytes of the view lie ahead. -/
def remaining (r : Reader) : Nat := r.length - r.position

/-- Whether the cursor is closed. -/
def isClosed (r : Reader) : Bool := r.file.isNone

/-- The file of a cursor that is not closed. -/
def openFile (r : Reader) : Except Error LoadedFile :=
  match r.file with
  | some file => .ok file
  | none => .error (.closed (.cursor r.description))

/-- Reads one byte. -/
def readByte : ReaderM UInt8 := fun r =>
  if r.length ≤ r.position then .error (.shortView (.byte r.description r.length)) r
  else
    match r.openFile with
    | .error e => .error e r
    | .ok file =>
      let position := r.base + r.position
      let index := position / file.blockSize
      match file.block index with
      | .error e => .error e r
      | .ok block =>
        match block[position % file.blockSize]? with
        | some byte => .ok byte { r with position := r.position + 1 }
        | none => .error (.misuse (.noSuchBlock index file.blocks.size)) r

/-- Reads `count` bytes, across blocks as need be. -/
def readBytes (count : Nat) : ReaderM Bytes := fun r =>
  if r.remaining < count then
    .error (.shortView (.bytes count r.position r.description r.length)) r
  else
    match r.openFile with
    | .error e => .error e r
    | .ok file =>
      match file.bytesAt (r.base + r.position) count with
      | .error e => .error e r
      | .ok bytes => .ok bytes { r with position := r.position + count }

/-- Moves to a position of the view, its end included. -/
def seek (target : Nat) : ReaderM Unit := fun r =>
  if r.length < target then .error (.outOfView (.seek target r.description r.length)) r
  else
    match r.openFile with
    | .error e => .error e r
    | .ok _ => .ok () { r with position := target }

/-- The view of `length` bytes from `offset` on. -/
def slice (r : Reader) (name : String) (offset length : Nat) : Except Error Reader :=
  match r.openFile with
  | .error e => .error e
  | .ok file =>
    if offset + length ≤ r.length then
      .ok ⟨s!"{r.description} [slice={name}]", some file, r.base + offset, length, 0⟩
    else .error (.outOfView (.slice name offset length r.length r.description))

/-- Lets go of the file. -/
def close (r : Reader) : Reader := { r with file := none }

/-- An action whose errors are reported as a stream reports them. -/
def asStream {α : Type} (act : ReaderM α) : EStateM IoError Reader α := fun r =>
  match act r with
  | .ok a r => .ok a r
  | .error e r => .error e.toIo r

/-- Reads as many of `count` bytes as there are. -/
def readSome (count : Nat) : EStateM IoError Reader Bytes := fun r =>
  asStream (readBytes (min count r.remaining)) r

/-- Reads all that is left. -/
def readToEnd : EStateM IoError Reader Bytes := fun r => readSome r.remaining r

/-- Where a relative position is counted from. -/
inductive Origin where
  | start
  | end
  | current

/-- The position that lies `distance` from an origin, if it fits in 64 bits. -/
def target? (r : Reader) (origin : Origin) (distance : Int) : Option Nat :=
  let target : Int := match origin with
    | .start => distance
    | .end => r.length + distance
    | .current => r.position + distance
  if 0 ≤ target && target.toNat ≤ Decimal.max64 then some target.toNat else none

/-- Moves by a distance from an origin; answers the new position. -/
def seekFrom (origin : Origin) (distance : Int) : EStateM IoError Reader Nat := fun r =>
  match r.target? origin distance with
  | none => .error ⟨.invalidInput, "seek to a negative position"⟩ r
  | some target =>
    match asStream (seek target) r with
    | .ok () r => .ok target r
    | .error e r => .error e r

end Reader

end BlockDir
