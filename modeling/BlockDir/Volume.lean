import BlockDir.Ascending
import BlockDir.Backend.Commit
import BlockDir.Codec
import BlockDir.Layout

/-!
# Volumes

A volume keeps files in two tables of a backend: the catalog maps names to lengths, the block table
holds the blocks. A mutation reads what it needs, checks it, and then commits one batch, which is
computed by a pure function of what was read: new blocks come first, then the catalog entry, then
the removal of what is no longer needed. A file is never loaded in part.
-/

namespace BlockDir

/-- Where and how files are kept. -/
structure Volume where
  catalogKey : Bytes
  blocksKey : Bytes
  blockSize : Nat
  codec : Codec
  syncInterval : Nat

/-- A file in memory. -/
structure LoadedFile where
  blocks : Array Bytes
  length : Nat
  blockSize : Nat

namespace LoadedFile

/-- A block of the file. -/
def block (file : LoadedFile) (index : Nat) : Except Error Bytes :=
  match file.blocks[index]? with
  | some block => .ok block
  | none => .error (.misuse (.noSuchBlock index file.blocks.size))

end LoadedFile

/-- The indices at which a list holds nothing. -/
def gaps {α : Type} (values : List (Option α)) : List Nat :=
  (values.zipIdx.filter (·.1.isNone)).map (·.2)

namespace Volume

/-- The volume that a configuration describes. -/
def ofConfig (c : Config) : Volume where
  catalogKey := Utf8.encode c.catalogKey
  blocksKey := Utf8.encode c.blocksKey
  blockSize := c.blockSize
  codec := Codec.ofCompress c.compress
  syncInterval := c.syncInterval

variable (v : Volume)

/-- Writes the stored forms of the blocks of a file, in order. -/
def blockWrites (name : String) (stored : List Bytes) : Batch :=
  stored.zipIdx.map fun (value, index) => ⟨v.blocksKey, .set (Layout.blockKey name index) value⟩

/-- Writes the catalog entry of a file. -/
def lengthWrite (name : String) (length : Nat) : Batch :=
  Batch.set v.catalogKey (Utf8.encode name) (Layout.encodeLength length)

/-- Removes the catalog entry of a file. -/
def entryRemoval (name : String) : Batch := Batch.delete v.catalogKey [Utf8.encode name]

/-- Removes the blocks of a file from index `low` up to, not including, `high`. -/
def blockRemoval (name : String) (low high : Nat) : Batch :=
  Batch.delete v.blocksKey ((List.range' low (high - low)).map (Layout.blockKey name))

/-- The batch that saves a file over one of `stale` blocks. -/
def saveBatch (name : String) (stored : List Bytes) (length stale : Nat) : Batch :=
  v.blockWrites name stored ++ v.lengthWrite name length ++
    v.blockRemoval name stored.length stale

/-- The batch that deletes a file of `count` blocks. -/
def deleteBatch (name : String) (count : Nat) : Batch :=
  v.entryRemoval name ++ v.blockRemoval name 0 count

/-- The batch that moves the blocks of one file over another of `stale` blocks. -/
def renameBatch (source dest : String) (stored : List Bytes) (length stale : Nat) : Batch :=
  v.saveBatch dest stored length stale ++ v.deleteBatch source stored.length

/-- Whether a file is in the catalog. -/
def contains (name : String) : ClientM Bool := Client.hasField v.catalogKey (Utf8.encode name)

/-- The catalogued length of a file, if it is in the catalog. -/
def length? (name : String) : ClientM (Option Nat) := do
  match ← Client.getField v.catalogKey (Utf8.encode name) with
  | some stored => return some (← give (Layout.decodeLength name stored))
  | none => return none

/-- The catalogued length of a file, zero if it is not in the catalog. -/
def length (name : String) : ClientM Nat := do
  return (← v.length? name).getD 0

/-- The names in the catalog, in the order of its fields. -/
def names : ClientM (List String) := do
  return (← Client.listFields v.catalogKey).map Utf8.lossy

/-- How many blocks a file of this volume has, if it may have that many. -/
def storedCount (name : String) (length : Nat) : Except Error Nat :=
  Layout.checkedCount name length v.blockSize

/-- How many blocks the previous version of a file has. -/
def staleCount (name : String) : Option Nat → Except Error Nat
  | some length => v.storedCount name length
  | none => .ok 0

/-- The stored forms of the first `count` blocks, each trimmed to its place in the file. Which
of several blocks that cannot be encoded is blamed is not to be counted on, as with `decodeBlocks`. -/
def encodeBlocks (length count : Nat) (blocks : List Bytes) : Except Error (List Bytes) :=
  (blocks.take count).zipIdx.mapM fun (block, index) =>
    v.codec.encode (block.take (Layout.blockLen length v.blockSize index))

/-- The block at `index` from its stored form. -/
def decodeBlock (name : String) (length index : Nat) (stored : Bytes) : Except Error Bytes :=
  match v.codec.decode stored with
  | .error e => .error e
  | .ok block =>
    let expected := Layout.blockLen length v.blockSize index
    if block.length < expected then
      .error (.damaged (.shortBlock name index block.length expected))
    else .ok (block.take expected)

/-- All blocks from their stored forms. Here the first block that is refused gives the error. Where four
or more compressed blocks are decoded side by side, the error may be that of any of those that are
refused, so what is shown of a refusal holds for the error of each of them (`decodeBlocks_eq_error`). -/
def decodeBlocks (name : String) (length : Nat) (stored : List Bytes) :
    Except Error (List Bytes) :=
  stored.zipIdx.mapM fun (value, index) => v.decodeBlock name length index value

/-- Saves a file from blocks of which there must be enough. -/
def save (name : String) (blocks : List Bytes) (length : Nat) : ClientM Unit := do
  let count ← give (Layout.countBlocks length v.blockSize)
  if blocks.length < count then
    throw (.argument (.tooFewBlocks name length count blocks.length))
  let previous ← v.length? name
  let stale ← give (v.staleCount name previous)
  let stored ← give (v.encodeBlocks length count blocks)
  Client.commit (v.saveBatch name stored length stale) v.syncInterval

/-- The stored forms of all `count` blocks of a file from what a batched read found: all of them, or
the reason why they are not all there. -/
def assemble (name : String) (length count : Nat) (fetched : Fetched) :
    Except Error (List Bytes) :=
  if !fetched.isComplete then .error (.link (.lostBlocks name fetched.failed count))
  else if fetched.values.length ≠ count then
    .error (.link (.fewBlocks name fetched.values.length count))
  else
    let missing := gaps fetched.values
    if missing.isEmpty then .ok (fetched.values.filterMap id)
    else .error (.damaged (.missingBlocks name length missing))

/-- The stored forms of all blocks of a file. -/
def loadStored (name : String) (length : Nat) : ClientM (List Bytes) := do
  let count ← give (v.storedCount name length)
  let fields := (List.range count).map (Layout.blockKey name)
  give (assemble name length count (← Client.fetch v.blocksKey fields v.syncInterval))

/-- A file of the given length. -/
def load (name : String) (length : Nat) : ClientM LoadedFile := do
  let stored ← v.loadStored name length
  let blocks ← give (v.decodeBlocks name length stored)
  return ⟨blocks.toArray, length, v.blockSize⟩

/-- Removes a file of the given length. -/
def erase (name : String) (length : Nat) : ClientM Unit := do
  let count ← give (v.storedCount name length)
  Client.commit (v.deleteBatch name count) v.syncInterval

/-- Deletes a file; answers whether it was in the catalog. -/
def delete (name : String) : ClientM Bool := do
  match ← v.length? name with
  | none => return false
  | some length =>
    v.erase name length
    return true

/-- Moves a file, given the stored forms of its blocks, over another name. -/
def rename (source dest : String) (stored : List Bytes) (length : Nat) : ClientM Unit := do
  if source = dest then
    return ()
  else
    let count ← give (v.storedCount source length)
    let previous ← v.length? dest
    let stale ← give (v.staleCount dest previous)
    if stored.length ≠ count then
      throw (.argument (.blockCount dest count stored.length))
    Client.commit (v.renameBatch source dest stored length stale) v.syncInterval

/-- The block keys in the block table, as names and indices; other fields are passed over. -/
def storedKeys : ClientM (List (String × Nat)) := do
  return (← Client.listFields v.blocksKey).filterMap Layout.parseBlockKey

end Volume

/-- The indices that go with a name, ascending. -/
def indicesOf (name : String) (keys : List (String × Nat)) : List Nat :=
  ascending ((keys.filter (·.1 = name)).map (·.2))

/-- All names with their indices, ascending. -/
def groupByName (keys : List (String × Nat)) : List (String × List Nat) :=
  (ascending (keys.map (·.1))).map fun name => (name, indicesOf name keys)

end BlockDir
