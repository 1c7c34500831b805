import BlockDir.Chunks
import BlockDir.Link.Wire

/-!
# Reading and writing over one link

Single commands with replies of the expected shape, batched reads in rounds of bounded size, and
batches of writes either as one transaction or in such rounds. A batched read never fails as a
whole: it answers one slot for each field, and a slot whose round failed says so.
-/

namespace BlockDir

namespace Reply

/-- A yes or no. -/
def toBool : Reply → Except Error Bool
  | integer n => .ok (n != 0)
  | other => .error (.link (.shape "integer" other.shape))

/-- A count. -/
def toInteger : Reply → Except Error Int
  | integer n => .ok n
  | other => .error (.link (.shape "integer" other.shape))

/-- A value or its absence. -/
def toValue : Reply → Except Error (Option Bytes)
  | nil => .ok none
  | bulk value => .ok (some value)
  | other => .error (.link (.shape "bulk" other.shape))

/-- A list; nil is the empty one. -/
def toList : Reply → Except Error (List Bytes)
  | multi items => .ok items
  | nil => .ok []
  | other => .error (.link (.shape "multi-bulk" other.shape))

/-- Whether a reply is a number, as every write must answer. -/
def isInteger : Reply → Bool
  | integer _ => true
  | _ => false

end Reply

/-- A result as an action that changes nothing. -/
def give {σ α : Type} (result : Except Error α) : EStateM Error σ α := fun state =>
  match result with
  | .ok a => .ok a state
  | .error e => .error e state

/-- What a batched read found for one field: `none` if its round failed, otherwise the value or its
absence. -/
abbrev Slot := Option (Option Bytes)

/-- The slot that a reply fills. -/
def Slot.ofReply (reply : Reply) : Slot := reply.toValue.toOption

/-- The result of a batched read: for each field a value or nothing, and the indices of the fields
that could not be read. -/
structure Fetched where
  values : List (Option Bytes)
  failed : List Nat

namespace Fetched

/-- The result that consists of the given slots. -/
def ofSlots (slots : List Slot) : Fetched :=
  ⟨slots.map Option.join, (slots.zipIdx.filter (·.1.isNone)).map (·.2)⟩

/-- The result when none of `n` fields could be read. -/
def allFailed (n : Nat) : Fetched := ofSlots (List.replicate n none)

/-- Whether every field was read. -/
def isComplete (f : Fetched) : Bool := f.failed.isEmpty

end Fetched

namespace Batch

/-- Every write must have been answered, and by a number. -/
def verify (batch : Batch) (replies : List Reply) : Except Error Unit :=
  if replies.length ≠ batch.length then
    .error (.link (.replyCount batch.length replies.length))
  else
    match (batch.zip replies).find? fun (_, reply) => !reply.isInteger with
    | some (write, reply) =>
      .error (.link (.unfinished (Command.write write).verb write.key reply))
    | none => .ok ()

end Batch

namespace Link

/-- Whether a field is there. -/
def hasField (link : Link) (key field : Bytes) : WireM Bool := do
  give (← link.execute (.ask key (.has field))).toBool

/-- The value of a field. -/
def getField (link : Link) (key field : Bytes) : WireM (Option Bytes) := do
  give (← link.execute (.ask key (.get field))).toValue

/-- Sets a field; answers whether it is new. -/
def setField (link : Link) (key field value : Bytes) : WireM Bool := do
  give (← link.execute (.write ⟨key, .set field value⟩)).toBool

/-- Deletes fields; answers how many were there. Deleting none sends nothing. -/
def deleteFields (link : Link) (key : Bytes) (fields : List Bytes) : WireM Nat := do
  if fields.isEmpty then
    return 0
  else
    let count ← give (← link.execute (.write ⟨key, .delete fields⟩)).toInteger
    return count.toNat

/-- The fields of a table. -/
def listFields (link : Link) (key : Bytes) : WireM (List Bytes) := do
  give (← link.execute (.ask key .fields)).toList

/-- Reads fields in one round trip. If it fails, or brings a wrong number of replies, every slot of
the round has failed. -/
def fetchRound (link : Link) (key : Bytes) (fields : List Bytes) : WireM (List Slot) := fun wire =>
  let lost := fields.map fun _ => none
  match link.send .pipeline (fields.map fun field => .ask key (.get field)) wire with
  | .ok replies wire =>
    .ok (if replies.length = fields.length then replies.map Slot.ofReply else lost) wire
  | .error _ wire => .ok lost wire

/-- Reads fields in rounds of at most `interval` commands, going on after failed rounds. -/
def fetchSlots (link : Link) (key : Bytes) (interval : Nat) (fields : List Bytes) :
    WireM (List Slot) := do
  return (← (chunks interval fields).mapM (link.fetchRound key)).flatten

/-- Commits a batch as one transaction; an empty batch sends nothing. -/
def transact (link : Link) (batch : Batch) : WireM Unit := do
  if batch.isEmpty then
    return ()
  else
    give (batch.verify (← link.send .transaction batch.commands))

/-- Commits a batch in rounds of at most `interval` commands, stopping at the first failure. -/
def commitRounds (link : Link) (interval : Nat) (batch : Batch) : WireM Unit :=
  (chunks interval batch).forM fun round => do
    give (Batch.verify round (← link.send .pipeline (Batch.commands round)))

end Link

end BlockDir
