import BlockDir.Text.Utf8

/-!
# Commands and replies

What a client says to a store and what it hears back. A store holds tables under keys; a table maps
fields to values. A command either asks (`Query`) or writes (`Change`); only writes go into a batch.
-/

namespace BlockDir

/-- A question about one table. -/
inductive Query where
  | has (field : Bytes)
  | get (field : Bytes)
  | fields

/-- A change of one table. -/
inductive Change where
  | set (field value : Bytes)
  | delete (fields : List Bytes)

/-- A change of the table under `key`. -/
structure Write where
  key : Bytes
  change : Change

/-- One command to a store. -/
inductive Command where
  | ask (key : Bytes) (query : Query)
  | write (write : Write)

/-- The reply to one command. -/
inductive Reply where
  | nil
  | integer (n : Int)
  | bulk (value : Bytes)
  | multi (items : List Bytes)

namespace Command

/-- The key of the table that a command addresses. -/
def key : Command → Bytes
  | ask key _ => key
  | write w => w.key

/-- Whether a command may change a table. -/
def isWrite : Command → Bool
  | ask .. => false
  | write _ => true

/-- The verb of a command on the wire. -/
def verb : Command → String
  | ask _ (.has _) => "HEXISTS"
  | ask _ (.get _) => "HGET"
  | ask _ .fields => "HKEYS"
  | write ⟨_, .set ..⟩ => "HSET"
  | write ⟨_, .delete _⟩ => "HDEL"

end Command

/-- An ordered row of writes that is committed as one. -/
abbrev Batch := List Write

namespace Batch

/-- The batch that sets one field. -/
def set (key field value : Bytes) : Batch := [⟨key, .set field value⟩]

/-- The batch that deletes fields; deleting none is no write at all. -/
def delete (key : Bytes) (fields : List Bytes) : Batch :=
  if fields.isEmpty then [] else [⟨key, .delete fields⟩]

/-- The commands of a batch. -/
def commands (batch : Batch) : List Command := batch.map .write

end Batch

namespace Reply

/-- The shape of a reply, as errors name it. -/
def shape : Reply → String
  | nil => "nil"
  | integer _ => "integer"
  | bulk _ => "bulk"
  | multi _ => "multi-bulk"

/-- The bytes of a value as a bracketed list of numbers. -/
def listBytes (bytes : Bytes) : String :=
  "[" ++ ", ".intercalate (bytes.map fun byte => toString byte.toNat) ++ "]"

/-- A reply with all it holds. -/
def describe : Reply → String
  | nil => "Nil"
  | integer n => s!"Integer({n})"
  | bulk value => s!"Bulk({listBytes value})"
  | multi items => "Multi([" ++ ", ".intercalate (items.map listBytes) ++ "])"

end Reply

end BlockDir
