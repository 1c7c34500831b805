import BlockDir.FileSystem

/-!
# Advisory locks

A lock is a lock file that is held locked. A manager works in one directory and knows the lock files
that are held through it, so that asking it twice fails before the file system is asked. A held lock
keeps its file open and remembers how it is marked; it is good as long as it was not released, its file
is empty, and its path leads to a file of that mark.
-/

namespace BlockDir

/-- Gives out the locks of one directory. -/
structure LockManager where
  directory : Path
  /-- The paths of the lock files that are held through this manager. -/
  held : List Path

/-- A lock that was obtained. -/
structure HeldLock where
  name : String
  path : Path
  /-- The file that was locked. It is kept open until the lock is given back. -/
  identity : Nat
  released : Bool
deriving DecidableEq

/-- Trouble of the operating system with a lock file, other than that it is locked. -/
inductive LockTrouble where
  /-- The file is not opened. -/
  | opening (error : IoError)
  /-- The file is opened, but its identity cannot be told. -/
  | inspecting (error : IoError)
  /-- The file is not locked. -/
  | locking (error : IoError)

/-- An action on lock files and a manager. -/
abbrev LockM := EStateM Error (FileSystem × LockManager)

/-- Whether a name may name a lock: one part of a path, and not a reference to a directory. -/
def isLockName (name : String) : Bool :=
  name ≠ "" && name ≠ "." && name ≠ ".." && !name.toList.contains '/' && !name.toList.contains '\\'

namespace LockManager

/-- A manager for a directory, which is made if need be. -/
def new (directory : Path) : FileM LockManager := do
  FileSystem.makeDirectories directory
  match (← get).canonical directory with
  | .ok place => return ⟨place, []⟩
  | .error e => throw e

/-- Whether a name, read as a path from the lock directory on or from the top, is a path below the
root. -/
def leadsTo (m : LockManager) (files : FileSystem) (name : String) (path : Path) : Bool :=
  if Path.isFromTop name then Path.same name (files.display path)
  else m.directory ++ (Path.parse name).names = path

/-- Whether a lock is held through this manager. The name is read as a path. -/
def isHeld (m : LockManager) (files : FileSystem) (name : String) : Bool :=
  m.held.any (m.leadsTo files name)

/-- Opens a lock file and looks at it. The file is made if there is none. -/
def openAmid (trouble : Option LockTrouble) (path : Path) : FileM Nat := fun files =>
  match trouble with
  | some (.opening e) => .error e files
  | some (.inspecting e) =>
    match FileSystem.openOrCreate path files with
    | .ok _ files => .error e files
    | .error e files => .error e files
  | _ => FileSystem.openOrCreate path files

/-- Locks a lock file, unless it is locked. -/
def lockAmid (trouble : Option LockTrouble) (path : Path) (identity : Nat) (files : FileSystem) :
    Except Error FileSystem :=
  match trouble with
  | some (.locking e) => .error (.io e)
  | _ =>
    match files.lockFile? identity with
    | some files => .ok files
    | none => .error (.lockHeld .anotherProgram (files.display path))

/-- Obtains a lock while the operating system may be in trouble. The lock file is made if there is
none, also when the lock is then refused. -/
def acquireAmid (trouble : Option LockTrouble) (name : String) : LockM HeldLock := fun (files, m) =>
  if !isLockName name then .error (.argument (.lockName name)) (files, m)
  else
    let path := m.directory ++ [name]
    match openAmid trouble path files with
    | .error e files => .error (.io e) (files, m)
    | .ok identity files =>
      if m.held.contains path then
        .error (.lockHeld .thisProcess (files.display path)) (files, m)
      else
        let marked := { m with held := path :: m.held }
        match lockAmid trouble path identity files with
        | .ok files => .ok ⟨name, path, identity, false⟩ (files, marked)
        | .error e => .error e (files, { marked with held := marked.held.erase path })

/-- Obtains a lock. -/
def acquire (name : String) : LockM HeldLock := acquireAmid none name

end LockManager

namespace HeldLock

/-- Why a lock is no longer good, if it is not. -/
def flaw? (lock : HeldLock) (files : FileSystem) (m : LockManager) : Option LockFlaw :=
  if lock.released then some .released
  else if !m.held.contains lock.path then some .cleared
  else
    let size := (files.content lock.identity).length
    if size ≠ 0 then some (.content size)
    else
      match files.identity lock.path with
      | .error e => some (.unreadable e.text)
      | .ok identity =>
        if identity.map files.mark = some (files.mark lock.identity) then none else some .replaced

/-- Fails if a lock is no longer good. -/
def validate (lock : HeldLock) (files : FileSystem) (m : LockManager) : Except Error Unit :=
  match lock.flaw? files m with
  | some flaw => .error (.lockInvalid flaw (files.display lock.path))
  | none => .ok ()

/-- A lock after its release. -/
def given (lock : HeldLock) : HeldLock := { lock with released := true }

/-- Gives a lock back while the operating system may be in trouble. The file is closed in any case, and
no longer locked then. Giving the lock back again does nothing. -/
def releaseAmid (trouble : Option IoError) (lock : HeldLock) : LockM Unit := fun (files, m) =>
  if lock.released then .ok () (files, m)
  else
    let unlocked := files.unlockFile lock.identity
    if m.held.contains lock.path then
      let cleared := { m with held := m.held.erase lock.path }
      match trouble with
      | none => .ok () (unlocked, cleared)
      | some e => .error (.io e) (unlocked, cleared)
    else .error (.lockInvalid .unknownAtRelease (files.display lock.path)) (unlocked, m)

/-- Gives a lock back. -/
def release (lock : HeldLock) : LockM Unit := releaseAmid none lock

/-- Whether the path of a lock leads to a file that is marked as the one that was locked. -/
def leadsToSameFile (lock : HeldLock) (files : FileSystem) : Except IoError Bool :=
  (files.identity lock.path).map fun identity =>
    identity.map files.mark = some (files.mark lock.identity)

end HeldLock

end BlockDir
