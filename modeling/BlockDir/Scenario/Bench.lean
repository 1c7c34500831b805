import BlockDir.Scenario.Step

/-!
# The bench of a scenario

All objects of a scenario. Objects that others share are numbered and stay; names lead to them. A
name that is given again lets go of what it led to, and what is let go of is dropped: a session goes
back to its pool, an output is struck off its directory's account, a lock is released.
-/

namespace BlockDir.Scenario

/-- Objects by name. -/
abbrev Named (α : Type) := List (Name × α)

namespace Named

variable {α : Type}

/-- The object of a name. -/
def find? (objects : Named α) (name : Name) : Option α :=
  (List.find? (·.1 = name) objects).map (·.2)

/-- The objects without that of a name. -/
def without (objects : Named α) (name : Name) : Named α := objects.filter (·.1 ≠ name)

/-- The objects with another one under a name. -/
def set (objects : Named α) (name : Name) (object : α) : Named α :=
  (name, object) :: objects.without name

end Named

/-- A backend as it was named: its number, and how many slots of a batched read it lets through. -/
structure Handle where
  number : Nat
  window : Option Nat

/-- A session: a link of its own, or one that was taken out of a pool. -/
inductive Session where
  | own (link : Link)
  | pooled (backend : Nat) (link : Link) (spoiled : Bool)

/-- A directory with its backend and its lock manager. -/
structure Opened where
  directory : Directory
  handle : Handle
  manager : Nat

/-- All objects of a scenario. -/
structure Bench where
  wire : Wire
  files : FileSystem
  backends : Array Backend
  managers : Array LockManager
  opened : Array Opened
  handles : Named Handle
  sessions : Named Session
  volumes : Named (Volume × Handle)
  loaded : Named LoadedFile
  directories : Named Nat
  /-- Outputs with the number of their directory. -/
  outputs : Named (Output × Nat)
  readers : Named Reader
  managerNames : Named Nat
  /-- Locks with the number of their manager. -/
  locks : Named (HeldLock × Nat)

/-- An action on the bench. -/
abbrev BenchM := EStateM Failure Bench

namespace Bench

/-- A bench without objects. -/
def new (root : String) : Bench where
  wire := .new
  files := .new root
  backends := #[]
  managers := #[]
  opened := #[]
  handles := []
  sessions := []
  volumes := []
  loaded := []
  directories := []
  outputs := []
  readers := []
  managerNames := []
  locks := []

/-- An object that must be there. -/
def need {α : Type} (object : Name) : Option α → BenchM α
  | some a => pure a
  | none => throw (.unknown object)

/-- What an action came to, be it a failure. -/
def attempt {α : Type} (act : BenchM α) : BenchM (Except Failure α) := fun bench =>
  match act bench with
  | .ok a bench => .ok (.ok a) bench
  | .error failure bench => .ok (.error failure) bench

/-- A result that may be an error. -/
def settle {α : Type} : Except Error α → BenchM α
  | .ok a => pure a
  | .error e => throw (.error e)

/-- A file operation's result. -/
def settleIo {α : Type} : Except IoError α → BenchM α
  | .ok a => pure a
  | .error e => throw (.io e)

/-- An action on files. -/
def onFiles {α : Type} (act : FileM α) : BenchM α := fun bench =>
  match act bench.files with
  | .ok a files => .ok a { bench with files }
  | .error e files => .error (.error (.io e)) { bench with files }

/-- An action on the wire. -/
def onWire {α : Type} (act : WireM α) : BenchM α := fun bench =>
  match act bench.wire with
  | .ok a wire => .ok a { bench with wire }
  | .error e wire => .error (.error e) { bench with wire }

/-- An action of a client of a backend. -/
def onClient {α : Type} (handle : Handle) (act : ClientM α) : BenchM α := fun bench =>
  match bench.backends[handle.number]? with
  | none => .error (.unknown "backend") bench
  | some backend =>
    match act ⟨backend, bench.wire, handle.window⟩ with
    | .ok a client =>
      .ok a { bench with
        backends := bench.backends.setIfInBounds handle.number client.backend
        wire := client.wire }
    | .error e client =>
      .error (.error e) { bench with
        backends := bench.backends.setIfInBounds handle.number client.backend
        wire := client.wire }

/-- An action of a directory at work. -/
def onDesk {α : Type} (number : Nat) (act : DeskM α) : BenchM α := fun bench =>
  match bench.opened[number]? with
  | none => .error (.unknown "directory") bench
  | some opened =>
    match bench.backends[opened.handle.number]? with
    | none => .error (.unknown "backend") bench
    | some backend =>
      let put (desk : Desk) : Bench :=
        { bench with
          opened := bench.opened.setIfInBounds number { opened with directory := desk.directory }
          backends := bench.backends.setIfInBounds opened.handle.number desk.client.backend
          wire := desk.client.wire }
      match act ⟨opened.directory, ⟨backend, bench.wire, opened.handle.window⟩⟩ with
      | .ok a desk => .ok a (put desk)
      | .error e desk => .error (.error e) (put desk)

/-- An action on the pool of a pooled backend. -/
def onPool {α : Type} (number : Nat) (act : PoolM α) : BenchM α := fun bench =>
  match bench.backends[number]? with
  | some (.pooled pool) =>
    let put (state : Pool × Wire) : Bench :=
      { bench with
        backends := bench.backends.setIfInBounds number (.pooled state.1)
        wire := state.2 }
    match act (pool, bench.wire) with
    | .ok a state => .ok a (put state)
    | .error e state => .error (.error e) (put state)
  | _ => .error (.unknown "pool") bench

/-- An action on the lock files and a manager. -/
def onLocks {α : Type} (number : Nat) (act : LockM α) : BenchM α := fun bench =>
  match bench.managers[number]? with
  | none => .error (.unknown "manager") bench
  | some manager =>
    let put (state : FileSystem × LockManager) : Bench :=
      { bench with
        files := state.1
        managers := bench.managers.setIfInBounds number state.2 }
    match act (bench.files, manager) with
    | .ok a state => .ok a (put state)
    | .error e state => .error (.error e) (put state)

/-- A read cursor's action. -/
def onReader {α : Type} (name : Name) (act : ReaderM α) : BenchM α := fun bench =>
  match bench.readers.find? name with
  | none => .error (.unknown name) bench
  | some reader =>
    match act reader with
    | .ok a reader => .ok a { bench with readers := bench.readers.set name reader }
    | .error e reader => .error (.error e) { bench with readers := bench.readers.set name reader }

/-- A read cursor's action as a stream. -/
def onStream {α : Type} (name : Name) (act : EStateM IoError Reader α) : BenchM α := fun bench =>
  match bench.readers.find? name with
  | none => .error (.unknown name) bench
  | some reader =>
    match act reader with
    | .ok a reader => .ok a { bench with readers := bench.readers.set name reader }
    | .error e reader => .error (.io e) { bench with readers := bench.readers.set name reader }

/-- Gives the link of a session back to the pool it was taken from. -/
def dropSession : Session → BenchM Unit
  | .own _ => pure ()
  | .pooled number link spoiled => onPool number fun (pool, wire) =>
    .ok () (pool.giveBack link spoiled wire)

/-- Strikes an output off its directory's account. -/
def dropOutput (output : Output) (number : Nat) : BenchM Unit :=
  onDesk number (Desk.dropOutput output)

/-- Releases a lock; whether that works makes no difference. -/
def dropLock (lock : HeldLock) (number : Nat) : BenchM Unit := fun bench =>
  match onLocks number lock.release bench with
  | .ok _ bench => .ok () bench
  | .error _ bench => .ok () bench

/-- Puts a session under a name. -/
def setSession (name : Name) (session : Session) : BenchM Unit := do
  let old := (← get).sessions.find? name
  modify fun bench => { bench with sessions := bench.sessions.set name session }
  match old with
  | some old => dropSession old
  | none => pure ()

/-- Puts an output under a name. -/
def setOutput (name : Name) (output : Output) (number : Nat) : BenchM Unit := do
  let old := (← get).outputs.find? name
  modify fun bench => { bench with outputs := bench.outputs.set name (output, number) }
  match old with
  | some (old, number) => dropOutput old number
  | none => pure ()

/-- Puts a lock under a name. -/
def setLock (name : Name) (lock : HeldLock) (number : Nat) : BenchM Unit := do
  let old := (← get).locks.find? name
  modify fun bench => { bench with locks := bench.locks.set name (lock, number) }
  match old with
  | some (old, number) => dropLock old number
  | none => pure ()

/-- Puts a cursor under a name. -/
def setReader (name : Name) (reader : Reader) : BenchM Unit :=
  modify fun bench => { bench with readers := bench.readers.set name reader }

/-- Adds a backend and puts it under a name. -/
def addBackend (name : Name) (backend : Backend) : BenchM Unit :=
  modify fun bench =>
    { bench with
      backends := bench.backends.push backend
      handles := bench.handles.set name ⟨bench.backends.size, none⟩ }

/-- Adds a lock manager for a directory; answers its number. -/
def addManager (path : Path) : BenchM Nat := do
  let manager ← onFiles (LockManager.new path)
  modifyGet fun bench =>
    (bench.managers.size, { bench with managers := bench.managers.push manager })

end Bench

end BlockDir.Scenario
