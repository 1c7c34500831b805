import BlockDir.Cursor.Datum
import BlockDir.Directory.Consistency
import BlockDir.Lock

/-!
# Steps of a scenario

A scenario is a row of steps on named objects: stores, backends, sessions, volumes, directories,
outputs, cursors, locks, and the files that locks live in. This module says what the steps are and
what they answer; `Scenario.Run` carries them out.
-/

namespace BlockDir.Scenario

/-- The name of an object. -/
abbrev Name := String

/-- Access to a store past all connections. -/
inductive StoreStep where
  | put (key field value : Bytes)
  | get (key field : Bytes)
  | remove (key field : Bytes)
  | count (key : Bytes)
  /-- The whole table; `codec` says how its values are shown. -/
  | dump (key : Bytes) (codec : Codec)

/-- What a new backend is made of. -/
inductive BackendPlan where
  | single (store : Nat)
  | pooled (config : PoolConfig) (store : Nat)
  | sharded (config : PoolConfig) (stores : List Nat)
  | cluster (stores : List Nat)
  /-- The same as another backend, but batched reads lose all slots after the first `keep`. -/
  | truncating (inner : Name) (keep : Nat)

/-- Work on a backend. -/
inductive BackendStep where
  | info
  | has (key field : Bytes)
  | get (key field : Bytes)
  | set (key field value : Bytes)
  | delete (key : Bytes) (fields : List Bytes)
  | fields (key : Bytes)
  | fetch (key : Bytes) (fields : List Bytes) (interval : Nat)
  | commit (batch : Batch) (interval : Nat)
  | close
  | slot (key : Bytes)
  | pool
  | checkout (session : Name)
  /-- Someone waits for a connection; then a session is dropped, or else the backend is closed. -/
  | wait (session : Option Name)

/-- Work on a session. -/
inductive SessionStep where
  | execute (command : Command)
  | send (mode : Mode) (commands : List Command)
  | close
  | discard
  | drop

/-- Work on a volume. -/
inductive VolumeStep where
  | has (name : String)
  | length (name : String)
  | lengthIfAny (name : String)
  | list
  | delete (name : String)
  | erase (name : String) (length : Nat)
  | rename (source dest : String) (stored : List Bytes) (length : Nat)
  | save (name : String) (blocks : List Bytes) (length : Nat)
  | load (name : String) (length : Nat) (file : Option Name)
  | loadStored (name : String) (length : Nat)
  | count (name : String) (length : Nat)
  | indices (name : String)
  | blocks

/-- Work on a directory. -/
inductive DirectoryStep where
  | list
  | has (name : String)
  | length (name : String)
  | delete (name : String)
  | rename (source dest : String)
  | sync (names : List String)
  | ram
  | pending
  | isClosed
  | kind
  | config
  | close
  | clone (copy : Name)
  | drop
  | create (name : String) (output : Name)
  | input (name : String) (reader : Name)
  | write (name : String) (data : Bytes)
  | read (name : String)
  | lock (name : String) (lock : Name)
  | isHeld (name : String)
  | check

/-- Work on an output. -/
inductive OutputStep where
  | write (datum : Datum)
  | writeSome (data : Bytes)
  | flush
  | checksum
  | info
  | close
  | drop

/-- Work on a read cursor. -/
inductive ReaderStep where
  | read (shape : Shape)
  | seek (target : Nat)
  | seekFrom (origin : Reader.Origin) (distance : Int)
  | readSome (count : Nat)
  | readToEnd
  | slice (copy : Name) (description : String) (offset length : Nat)
  | clone (copy : Name)
  | close
  | info

/-- Work on a lock. -/
inductive LockStep where
  | validate
  | release
  | drop
  | info
  | sameFile

/-- Changes of files from outside. -/
inductive FileStep where
  | makeDirectory
  | write (data : Bytes)
  | append (data : Bytes)
  | truncate
  | remove
  | replace
  | size

/-- One step. -/
inductive Step where
  | store (number : Nat) (step : StoreStep)
  | arm (fault : ArmedFault)
  | newBackend (backend : Name) (plan : BackendPlan)
  | backend (backend : Name) (step : BackendStep)
  | openSession (session : Name) (store : Nat)
  | session (session : Name) (step : SessionStep)
  | newVolume (volume backend : Name) (config : Config)
  | volume (volume : Name) (step : VolumeStep)
  | block (file : Name) (index : Nat)
  | cursor (file : Name) (description : String) (reader : Name)
  | openDirectory (directory backend : Name) (config : Config)
  | directory (directory : Name) (step : DirectoryStep)
  | output (output : Name) (step : OutputStep)
  | reader (reader : Name) (step : ReaderStep)
  | newManager (manager : Name) (path : Path)
  | acquire (manager : Name) (name : String) (lock : Name)
  | isHeld (manager : Name) (name : String)
  | lock (lock : Name) (step : LockStep)
  | file (path : Path) (step : FileStep)

/-- What a step answers. -/
inductive Answer where
  | done
  | flag (value : Bool)
  | number (value : Int)
  | maybeNumber (value : Option Nat)
  | text (value : String)
  | texts (values : List String)
  | numbers (values : List Nat)
  | data (value : Bytes)
  | maybeData (value : Option Bytes)
  | dataList (values : List Bytes)
  | names (values : List Bytes)
  | table (entries : List (Bytes × Bytes))
  | grouped (groups : List (String × List Nat))
  | backend (kind : BackendKind) (transactions : Bool)
  | shard (count slot : Nat)
  | pool (live idle : Nat)
  | fetched (result : Fetched)
  | reply (reply : Reply)
  | replies (replies : List Reply)
  | loaded (file : LoadedFile)
  | report (report : Report)
  | config (config : Config)
  | output (name : String) (pointer : Nat)
  | reader (reader : Reader)
  | datum (datum : Datum)
  | someData (data : Bytes)
  | lock (name : String) (released : Bool) (path : String)

/-- Why a step has no answer. -/
inductive Failure where
  | error (error : Error)
  /-- The error of a file operation or of a stream of bytes. -/
  | io (error : IoError)
  /-- A step about an object that is not there or cannot do that. -/
  | unknown (object : Name)

end BlockDir.Scenario
