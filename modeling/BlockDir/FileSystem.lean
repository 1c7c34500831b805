import BlockDir.Error
import BlockDir.Path
import Std.Data.ExtTreeMap.Lemmas

/-!
# A small file system

Directories and files below one root, as far as lock files need them: files have contents and an
identity that outlives their name, and a file can be locked exclusively. A directory maps names to
files and directories; a path is followed from the root, part by part, with `.` and `..`. All
changes of directories go through `setEntry`, and `lookup_setEntry` says what it does.
-/

namespace BlockDir

/-- What a name leads to. -/
inductive Entry where
  | directory (number : Nat)
  | file (identity : Nat)

/-- Directories and files below a root. -/
structure FileSystem where
  /-- What the root is called in messages. -/
  root : String
  /-- The entries of each directory by its number. The root has number 0. -/
  directories : Std.ExtTreeMap Nat (Std.ExtTreeMap String Entry)
  /-- The contents of files by identity, those without a name included. -/
  contents : Std.ExtTreeMap Nat Bytes
  /-- The identities of files that are locked. -/
  locked : List Nat
  /-- The number of the next new file or directory. -/
  next : Nat
  /-- What files are told apart by from outside, as long as they are there: where a file is kept and when
  it was made. Files of which one was gone before the other was made may have it in common. -/
  mark : Nat → Nat

/-- An action on files. What it did before it failed stays done. -/
abbrev FileM := EStateM IoError FileSystem

namespace IoError

def notFound : IoError := ⟨.notFound, "No such file or directory (os error 2)"⟩
def alreadyExists : IoError := ⟨.alreadyExists, "File exists (os error 17)"⟩
def notADirectory : IoError := ⟨.notADirectory, "Not a directory (os error 20)"⟩
def isADirectory : IoError := ⟨.isADirectory, "Is a directory (os error 21)"⟩
def invalidFilename : IoError := ⟨.invalidFilename, "File name too long (os error 36)"⟩
def nulInName : IoError := ⟨.invalidInput, "file name contained an unexpected NUL byte"⟩

end IoError

/-- The longest part of a path, in bytes. -/
def maxPartLength : Nat := 255

/-- The longest path below the root, in bytes: 4095 with the path of the root itself. -/
def maxPathLength : Nat := 4080

/-- A directory as it was reached: the names that lead to it from the root, the last one first, each
with the number of its directory. -/
abbrev Way := List (String × Nat)

namespace Way

/-- The number of the directory. -/
def number : Way → Nat
  | [] => 0
  | (_, number) :: _ => number

/-- The path of the directory. -/
def path (way : Way) : Path := (way.map (·.1)).reverse

end Way

/-- Where a path ends. -/
inductive Target where
  /-- A directory, because the last part of the path asks for one. -/
  | directory (way : Way)
  /-- A name in a directory, with what it leads to. -/
  | name (way : Way) (name : String) (entry : Option Entry)

/-- Refuses what can be no path at all. -/
def Path.check (path : Path) : Except IoError Unit :=
  if path.any (·.toList.contains '\x00') then .error .nulInName
  else if maxPathLength < path.size then .error .invalidFilename
  else .ok ()

namespace FileSystem

/-- A file system with nothing below its root, in which no mark is used twice. -/
def new (root : String) : FileSystem := ⟨root, ∅, ∅, [], 1, id⟩

variable (files : FileSystem)

/-- A path as messages show it. -/
def display (path : Path) : String := "/".intercalate (files.root :: path)

/-- What a name in a directory leads to. -/
def lookup (directory : Nat) (name : String) : Option Entry :=
  (files.directories.getD directory ∅)[name]?

/-- Lets a name in a directory lead elsewhere, or nowhere. -/
def setEntry (directory : Nat) (name : String) (entry : Option Entry) : FileSystem :=
  let entries := files.directories.getD directory ∅
  { files with
    directories := files.directories.insert directory
      (match entry with
        | some entry => entries.insert name entry
        | none => entries.erase name) }

/-- Only the name that was set leads elsewhere. -/
theorem lookup_setEntry (directory : Nat) (name : String) (entry : Option Entry)
    (directory' : Nat) (name' : String) :
    (files.setEntry directory name entry).lookup directory' name' =
      if directory = directory' ∧ name = name' then entry
      else files.lookup directory' name' := by
  by_cases hd : directory = directory'
  · subst hd
    cases entry <;>
      simp [lookup, setEntry, Std.ExtTreeMap.getElem?_insert, Std.ExtTreeMap.getElem?_erase,
        Std.LawfulEqCmp.compare_eq_iff_eq]
  · simp [lookup, setEntry, Std.ExtTreeMap.getD_insert, Std.LawfulEqCmp.compare_eq_iff_eq, hd]

/-! ## Following a path -/

/-- Goes from a directory along one part of a path. -/
def step (way : Way) (part : String) : Except IoError Way :=
  if Path.isIdle part then .ok way
  else if part = ".." then .ok way.tail
  else if maxPartLength < part.utf8ByteSize then .error .invalidFilename
  else
    match files.lookup way.number part with
    | some (.directory number) => .ok ((part, number) :: way)
    | some (.file _) => .error .notADirectory
    | none => .error .notFound

/-- The directory that a path leads to. -/
def walk (path : Path) : Except IoError Way := path.foldlM files.step []

/-- Where a path ends. All but its last part must lead to directories. -/
def follow (path : Path) : Except IoError Target :=
  match files.walk path.dropLast with
  | .error e => .error e
  | .ok way =>
    match path.getLast? with
    | none => .ok (.directory way)
    | some part =>
      if Path.isIdle part then .ok (.directory way)
      else if part = ".." then .ok (.directory way.tail)
      else if maxPartLength < part.utf8ByteSize then .error .invalidFilename
      else .ok (.name way part (files.lookup way.number part))

/-- Where a path ends, if it is one. -/
def resolve (path : Path) : Except IoError Target :=
  match path.check with
  | .error e => .error e
  | .ok () => files.follow path

/-- Where a path ends at which something is to be made: there a slash at the end asks for nothing. -/
def resolveNew (path : Path) : Except IoError Target :=
  match path.check with
  | .error e => .error e
  | .ok () => files.follow path.withoutSlashes

/-- What a path leads to. -/
def find (path : Path) : Except IoError Entry :=
  match files.resolve path with
  | .error e => .error e
  | .ok (.directory way) => .ok (.directory way.number)
  | .ok (.name _ _ (some entry)) => .ok entry
  | .ok (.name _ _ none) => .error .notFound

/-- Whether a path leads to a directory. -/
def isDirectory (path : Path) : Bool :=
  match files.find path with
  | .ok (.directory _) => true
  | _ => false

/-- The path of a directory without idle parts and `..`. -/
def canonical (path : Path) : Except IoError Path :=
  match path.check with
  | .error e => .error e
  | .ok () => (files.walk path).map Way.path

/-- The identity of the file at a path; a directory has none. -/
def identity (path : Path) : Except IoError (Option Nat) :=
  match files.find path with
  | .ok (.file identity) => .ok (some identity)
  | .ok (.directory _) => .ok none
  | .error e => .error e

/-- The contents of a file by its identity. -/
def content (identity : Nat) : Bytes := files.contents.getD identity []

/-- The size of the file at a path, if there is one. -/
def size? (path : Path) : Option Nat :=
  match files.find path with
  | .ok (.file identity) => some (files.content identity).length
  | _ => none

/-- Replaces the contents of a file. -/
def setContent (identity : Nat) (data : Bytes) : FileSystem :=
  { files with contents := files.contents.insert identity data }

/-! ## Making directories -/

/-- Makes one directory. -/
def makeDirectory (path : Path) : FileM Unit := fun files =>
  match files.resolveNew path with
  | .error e => .error e files
  | .ok (.name way name none) =>
    .ok () { files.setEntry way.number name (some (.directory files.next)) with
      next := files.next + 1 }
  | .ok _ => .error .alreadyExists files

/-- Makes one directory, unless it is there. -/
def makeIfMissing (path : Path) : FileM Unit := fun files =>
  match makeDirectory path files with
  | .ok () files => .ok () files
  | .error e files => if files.isDirectory path then .ok () files else .error e files

/-- Makes one directory, unless it is there. If those above it are missing, they are made first. -/
def makeBelow (above : FileM Unit) (path : Path) : FileM Unit := fun files =>
  match makeIfMissing path files with
  | .ok () files => .ok () files
  | .error e files =>
    match e.kind with
    | .notFound =>
      match above files with
      | .ok () files => makeIfMissing path files
      | .error e files => .error e files
    | _ => .error e files

/-- Makes the directories along a path, which is written back to front. -/
def makeAlong : (reversed : Path) → FileM Unit
  | [] => fun files => .ok () files
  | part :: above => fun files =>
    if Path.isIdle part then makeAlong above files
    else makeBelow (makeAlong above) (part :: above).reverse files

/-- Makes a directory and those above it. -/
def makeDirectories (path : Path) : FileM Unit :=
  makeBelow (makeAlong (Path.above path.reverse)) path

/-! ## Files -/

/-- Puts a new empty file under a name; answers its identity. -/
def newFile (directory : Nat) (name : String) : FileM Nat := fun files =>
  .ok files.next
    { files.setEntry directory name (some (.file files.next)) with
      contents := files.contents.insert files.next []
      next := files.next + 1 }

/-- Opens the file at a path, making it if there is none; answers its identity. -/
def openOrCreate (path : Path) : FileM Nat := fun files =>
  match files.resolveNew path with
  | .error e => .error e files
  | .ok target =>
    if path.getLast? = some "" then .error .isADirectory files
    else
      match target with
      | .name _ _ (some (.file identity)) => .ok identity files
      | .name way name none => newFile way.number name files
      | _ => .error .isADirectory files

/-- Locks a file, unless it is locked. -/
def lockFile? (identity : Nat) : Option FileSystem :=
  if files.locked.contains identity then none
  else some { files with locked := identity :: files.locked }

/-- Unlocks a file. -/
def unlockFile (identity : Nat) : FileSystem :=
  { files with locked := files.locked.erase identity }

/-- Writes a file, over its previous contents. -/
def writeFile (path : Path) (data : Bytes) : FileM Unit := do
  let identity ← openOrCreate path
  modify fun files => files.setContent identity data

/-- Appends to a file. -/
def appendFile (path : Path) (data : Bytes) : FileM Unit := do
  let identity ← openOrCreate path
  modify fun files => files.setContent identity (files.content identity ++ data)

/-- Removes the name of a file. -/
def removeFile (path : Path) : FileM Unit := fun files =>
  match files.resolve path with
  | .error e => .error e files
  | .ok (.name way name (some (.file _))) => .ok () (files.setEntry way.number name none)
  | .ok (.name _ _ none) => .error .notFound files
  | .ok _ => .error .isADirectory files

/-- Moves a file to another path, over a file that is there. -/
def moveFile (source dest : Path) : FileM Unit := fun files =>
  match files.resolve source with
  | .error e => .error e files
  | .ok (.name _ _ none) => .error .notFound files
  | .ok (.name _ _ (some (.directory _))) | .ok (.directory _) => .error .isADirectory files
  | .ok (.name way name (some (.file identity))) =>
    match files.resolve dest with
    | .error e => .error e files
    | .ok (.name _ _ (some (.directory _))) | .ok (.directory _) => .error .isADirectory files
    | .ok (.name way' name' _) =>
      .ok () ((files.setEntry way.number name none).setEntry way'.number name'
        (some (.file identity)))

/-- Puts a new empty file in the place of a file. -/
def replaceFile (path : Path) : FileM Unit := fun files =>
  match files.resolve path with
  | .error e => .error e files
  | .ok (.name _ _ (some (.directory _))) | .ok (.directory _) => .error .isADirectory files
  | .ok (.name way name _) =>
    match newFile way.number name files with
    | .ok _ files => .ok () files
    | .error e files => .error e files

end FileSystem

end BlockDir
