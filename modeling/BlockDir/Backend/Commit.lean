import BlockDir.Backend.Basic

/-!
# Committing a batch

How a batch of writes reaches the stores. With one store it is one transaction. With shards, a batch
that stays on one shard is a transaction there; any other is cut where it passes from one shard to
the next and goes out stretch by stretch, in rounds. On a cluster every write goes out by itself. In
no case are writes reordered, and nothing is sent after a failure.
-/

namespace BlockDir

namespace Batch

/-- The stretches of a batch that stay on one of `n + 1` stores, each with its store. -/
def stretches (n : Nat) : Batch → List (Fin (n + 1) × Batch)
  | [] => []
  | write :: rest =>
    match stretches n rest with
    | (slot, stretch) :: more =>
      if route n write.key = slot then (slot, write :: stretch) :: more
      else (route n write.key, [write]) :: (slot, stretch) :: more
    | [] => [(route n write.key, [write])]

/-- The key of the first write. -/
def leadingKey (batch : Batch) : Bytes := (batch.head?.map (·.key)).getD []

end Batch

namespace Client

/-- Sends one write by itself. -/
def writeSingly (write : Write) : ClientM Unit :=
  onLink write.key fun link => do
    let _ ← give (← link.execute (.write write)).toInteger

/-- Commits a batch, in rounds of at most `interval` writes where it is not one transaction. -/
def commit (batch : Batch) (interval : Nat) : ClientM Unit := fun client =>
  match client.backend with
  | .single .. => onLink batch.leadingKey (·.transact batch) client
  | .pooled _ => onLink batch.leadingKey (·.transact batch) client
  | @Backend.sharded n _ =>
    match batch.stretches n with
    | [_] => onLink batch.leadingKey (·.transact batch) client
    | stretches =>
      (stretches.forM fun (_, stretch) =>
        onLink stretch.leadingKey (·.commitRounds interval stretch)) client
  | .cluster .. => (batch.forM writeSingly) client

/-- Closes the links of a row in turn, up to the first that fails to close. -/
def closeNodes : List Link → WireM Unit
  | [] => pure ()
  | link :: rest => do
    let _ ← link.close
    closeNodes rest

/-- Closes a backend. Closing it again does nothing. -/
def close : ClientM Unit := fun client =>
  match client.backend with
  | .single link closed =>
    if closed then .ok () client
    else
      match link.close client.wire with
      | .ok link wire => .ok () { client with backend := .single link true, wire }
      | .error e wire => .error e { client with backend := .single link true, wire }
  | .pooled pool =>
    .ok () { client with
      backend := .pooled pool.shut
      wire := Link.abandonAll pool.doomed client.wire }
  | .sharded shards =>
    .ok () { client with
      backend := .sharded (shards.map Pool.shut)
      wire := Link.abandonAll (shards.toList.flatMap Pool.doomed) client.wire }
  | .cluster nodes closed =>
    if closed then .ok () client
    else
      match closeNodes nodes.toList client.wire with
      | .ok () wire => .ok () { client with backend := .cluster nodes true, wire }
      | .error e wire => .error e { client with backend := .cluster nodes true, wire }

end Client

end BlockDir
