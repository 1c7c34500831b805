import BlockDir.Backend.Pool
import BlockDir.Crc32

/-!
# Backends

Four ways to reach the stores: one link; a pool of links to one store; a pool for each of several
shards; a link to each node of a cluster. With several stores a table lives where the checksum of
its key points (`route`), so a whole table is always on one store.
-/

namespace BlockDir

/-- The four ways to reach stores. -/
inductive BackendKind where
  | single
  | pooled
  | sharded
  | cluster

/-- The name of a kind of backend. -/
def BackendKind.name : BackendKind → String
  | single => "single"
  | pooled => "pooled"
  | sharded => "sharded"
  | cluster => "cluster"

/-- A way to reach stores. -/
inductive Backend where
  | single (link : Link) (closed : Bool)
  | pooled (pool : Pool)
  | sharded {n : Nat} (shards : Vector Pool (n + 1))
  | cluster {n : Nat} (nodes : Vector Link (n + 1)) (closed : Bool)

/-- Which of `n + 1` stores holds the table under a key. -/
def route (n : Nat) (key : Bytes) : Fin (n + 1) := Fin.ofNat (n + 1) (Crc32.checksum key).toNat

/-- A backend in use: the backend, the wire below it, and how many slots of a batched read get
through to the caller (`none` for all). -/
structure Client where
  backend : Backend
  wire : Wire
  window : Option Nat

/-- An action of a client. -/
abbrev ClientM := EStateM Error Client

namespace Backend

/-- The kind of a backend. -/
def kind : Backend → BackendKind
  | single .. => .single
  | pooled _ => .pooled
  | sharded _ => .sharded
  | cluster .. => .cluster

/-- Whether every batch is all or nothing. -/
def supportsTransactions : Backend → Bool
  | single .. => true
  | pooled _ => true
  | @sharded n _ => n = 0
  | cluster .. => false

/-- A backend over one link to a store. -/
def openSingle (store : Nat) : WireM Backend := do
  return .single (← Wire.connect store) false

/-- A backend over a pool for a store. -/
def openPooled (config : PoolConfig) (store : Nat) : Except Error Backend := do
  return .pooled (← Pool.new config store)

/-- A vector of the elements of a list that is not empty. -/
def nonempty? {α : Type} : List α → Option ((n : Nat) × Vector α (n + 1))
  | [] => none
  | a :: rest => some ⟨rest.length, ⟨(a :: rest).toArray, rfl⟩⟩

/-- A backend over a pool for each store. -/
def openSharded (config : PoolConfig) (stores : List Nat) : Except Error Backend := do
  match nonempty? stores with
  | none => throw (.config .noShards)
  | some ⟨_, stores⟩ => return .sharded (← stores.mapM (Pool.new config))

/-- A backend over a link to each store, opened in order. -/
def openCluster (stores : List Nat) : WireM Backend := do
  let links ← stores.mapM Wire.connect
  match nonempty? links with
  | none => throw (.config .noNodes)
  | some ⟨_, nodes⟩ => return .cluster nodes false

/-- The store that holds the table under a key. -/
def storeOf (backend : Backend) (key : Bytes) : Nat :=
  match backend with
  | single link _ => link.store
  | pooled pool => pool.store
  | @sharded n shards => shards[route n key].store
  | @cluster n nodes _ => nodes[route n key].store

end Backend

namespace Client

/-- Runs an action on the link that serves a key. -/
def lend {α : Type} (key : Bytes) (spoils : α → Bool) (act : Link → WireM α) : ClientM α :=
  fun client =>
    match client.backend with
    | .single link closed =>
      if closed then .error (.closed .singleBackend) client
      else
        match act link client.wire with
        | .ok a wire => .ok a { client with wire }
        | .error e wire => .error e { client with wire }
    | .pooled pool =>
      match Pool.lend spoils act (pool, client.wire) with
      | .ok a (pool, wire) => .ok a { client with backend := .pooled pool, wire }
      | .error e (pool, wire) => .error e { client with backend := .pooled pool, wire }
    | @Backend.sharded n shards =>
      match Pool.lend spoils act (shards[route n key], client.wire) with
      | .ok a (pool, wire) =>
        .ok a { client with backend := .sharded (shards.set (route n key) pool), wire }
      | .error e (pool, wire) =>
        .error e { client with backend := .sharded (shards.set (route n key) pool), wire }
    | @Backend.cluster n nodes closed =>
      if closed then .error (.closed .clusterBackend) client
      else
        match act nodes[route n key] client.wire with
        | .ok a wire => .ok a { client with wire }
        | .error e wire => .error e { client with wire }

/-- Runs an action that spoils its link only by failing in transport. -/
def onLink {α : Type} (key : Bytes) (act : Link → WireM α) : ClientM α :=
  lend key (fun _ => false) act

/-- Whether a field is there. -/
def hasField (key field : Bytes) : ClientM Bool := onLink key (·.hasField key field)

/-- The value of a field. -/
def getField (key field : Bytes) : ClientM (Option Bytes) := onLink key (·.getField key field)

/-- Sets a field; answers whether it is new. -/
def setField (key field value : Bytes) : ClientM Bool := onLink key (·.setField key field value)

/-- Deletes fields; answers how many were there. -/
def deleteFields (key : Bytes) (fields : List Bytes) : ClientM Nat :=
  onLink key (·.deleteFields key fields)

/-- The fields of a table. -/
def listFields (key : Bytes) : ClientM (List Bytes) := onLink key (·.listFields key)

/-- The slot of one field, read on its own. -/
def fetchSingly (key field : Bytes) : ClientM Slot := fun client =>
  match getField key field client with
  | .ok value client => .ok (some value) client
  | .error _ client => .ok none client

/-- The slots of many fields: in rounds over one link, or singly on a cluster. -/
def fetchSlots (key : Bytes) (fields : List Bytes) (interval : Nat) : ClientM (List Slot) :=
  fun client =>
    match client.backend with
    | .cluster .. => (fields.mapM (fetchSingly key)) client
    | _ =>
      match lend key (·.any Option.isNone) (·.fetchSlots key interval fields) client with
      | .ok slots client => .ok slots client
      | .error _ client => .ok (List.replicate fields.length none) client

/-- Reads many fields at once. -/
def fetch (key : Bytes) (fields : List Bytes) (interval : Nat) : ClientM Fetched := do
  let fetched := Fetched.ofSlots (← fetchSlots key fields interval)
  match (← get).window with
  | none => return fetched
  | some keep => return { fetched with values := fetched.values.take keep }

end Client

end BlockDir
