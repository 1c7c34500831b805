import BlockDir.Cursor.Reader
import BlockDir.Cursor.Writer

/-!
# Directories

A directory offers files by name on a volume. It hands out cursors to read and outputs to write,
keeps account of the outputs that are open and of the memory they take, and refuses all work once it
is closed. A file is stored when its output is closed, all at once.
-/

namespace BlockDir

/-- A directory. -/
structure Directory where
  config : Config
  /-- The memory that open outputs take, in bytes. -/
  buffered : Nat
  /-- The names of the open outputs, one entry for each output. -/
  pending : List String
  closed : Bool

/-- A directory at work: its own state and its client. -/
structure Desk where
  directory : Directory
  client : Client

/-- An action of a directory at work. -/
abbrev DeskM := EStateM Error Desk

namespace Directory

/-- A directory with no open outputs. -/
def new (config : Config) : Except Error Directory :=
  match config.validate with
  | .ok () => .ok ⟨config, 0, [], false⟩
  | .error e => .error e

variable (d : Directory)

/-- The volume on which the files are kept. -/
def volume : Volume := Volume.ofConfig d.config

/-- Refuses an operation once the directory is closed. -/
def ensureOpen (operation : String) : Except Error Unit :=
  if d.closed then .error (.closed (.directory operation)) else .ok ()

/-- The names of the open outputs, ascending. -/
def pendingOutputs : List String := ascending d.pending

/-- The names of all files, ascending; a name that stands for two catalog fields is named twice. -/
def list : ClientM (List String) := do
  give (d.ensureOpen "list_all")
  return (← d.volume.names).mergeSort (fun a b => compare a b != .gt)

/-- Whether a file is there. -/
def fileExists (name : String) : ClientM Bool := do
  give (d.ensureOpen "file_exists")
  d.volume.contains name

/-- The length of a file; a file that is not there has none. -/
def fileLength (name : String) : ClientM Nat := do
  give (d.ensureOpen "file_length")
  d.volume.length name

/-- Deletes a file, if it is there. -/
def deleteFile (name : String) : ClientM Unit := do
  give (d.ensureOpen "delete_file")
  let _ ← d.volume.delete name

/-- Gives a file another name, over a file of that name. -/
def renameFile (source dest : String) : ClientM Unit := do
  give (d.ensureOpen "rename_file")
  match ← d.volume.length? source with
  | none => throw (.missing (.renamed source dest))
  | some length =>
    let stored ← d.volume.loadStored source length
    d.volume.rename source dest stored length

/-- A cursor at the start of a file. -/
def openInput (name : String) : ClientM Reader := do
  give (d.ensureOpen "open_input")
  match ← d.volume.length? name with
  | none => throw (.missing (.input name))
  | some length => return Reader.new name (← d.volume.load name length)

/-- Makes sure of files; there is nothing to do, as closing an output stores it. -/
def sync (_names : List String) : Except Error Unit := d.ensureOpen "sync"

/-- Starts a file. -/
def createOutput (name : String) : Except Error (Output × Directory) :=
  match d.ensureOpen "create_output" with
  | .error e => .error e
  | .ok () =>
    if name.isEmpty then .error (.argument .emptyName)
    else
      .ok (Output.new name d.config.blockSize d.config.checksum,
        { d with pending := name :: d.pending })

/-- Appends to an output, with the memory that takes. -/
def write (output : Output) (data : Bytes) : Output × Directory :=
  let grown := output.write data
  (grown, { d with buffered := d.buffered + (grown.allocated - output.allocated) })

/-- Strikes an output off the account. -/
def release (output : Output) : Directory :=
  { d with
    buffered := d.buffered - output.allocated
    pending := d.pending.erase output.name }

/-- Stores the file of an output. -/
def store (output : Output) : ClientM Unit := do
  give (d.ensureOpen "close output")
  d.volume.save output.name output.blocks.toList output.position

end Directory

namespace Desk

/-- An action of the client, on behalf of the directory. -/
def onClient {α : Type} (act : Directory → ClientM α) : DeskM α := fun desk =>
  match act desk.directory desk.client with
  | .ok a client => .ok a { desk with client }
  | .error e client => .error e { desk with client }

/-- Starts a file. -/
def createOutput (name : String) : DeskM Output := fun desk =>
  match desk.directory.createOutput name with
  | .ok (output, directory) => .ok output { desk with directory }
  | .error e => .error e desk

/-- Appends to an output. -/
def write (output : Output) (data : Bytes) : DeskM Output := fun desk =>
  let (output, directory) := desk.directory.write output data
  .ok output { desk with directory }

/-- Gives up an output without storing it. -/
def dropOutput (output : Output) : DeskM Unit := fun desk =>
  .ok () { desk with directory := desk.directory.release output }

/-- Stores the file of an output. The output is gone in any case. -/
def closeOutput (output : Output) : DeskM Unit := fun desk =>
  let directory := desk.directory.release output
  match desk.directory.store output desk.client with
  | .ok () client => .ok () { desk with directory, client }
  | .error e client => .error e { desk with directory, client }

/-- Closes the directory and its backend. Closing it again does nothing. -/
def close : DeskM Unit := fun desk =>
  if desk.directory.closed then .ok () desk
  else
    let directory := { desk.directory with closed := true }
    match Client.close desk.client with
    | .ok () client => .ok () { desk with directory, client }
    | .error e client => .error e { desk with directory, client }

end Desk

end BlockDir
