import BlockDir.Directory.Basic

/-!
# Checking the two tables against each other

The check reads the block table, then the catalog, and reports for every catalogued file which of
its blocks are missing and which lie beyond its length, which catalog entries cannot be right, and
which blocks belong to no file. It changes nothing.
-/

namespace BlockDir

/-- What a check found. -/
structure Report where
  files : Nat
  missing : List (String × Nat)
  extra : List (String × Nat)
  orphans : List (String × Nat)
  badLengths : List String

namespace Report

/-- The report before any file was looked at. -/
def empty : Report := ⟨0, [], [], [], []⟩

/-- Whether nothing was found amiss. -/
def isConsistent (r : Report) : Bool :=
  r.missing.isEmpty && r.extra.isEmpty && r.orphans.isEmpty && r.badLengths.isEmpty

/-- Adds a file whose catalog entry cannot be right. -/
def addBad (r : Report) (name : String) : Report :=
  { r with files := r.files + 1, badLengths := r.badLengths ++ [name] }

/-- Adds a file of `count` blocks of which those at `present` are there. -/
def addFile (r : Report) (name : String) (count : Nat) (present : List Nat) : Report :=
  { r with
    files := r.files + 1
    missing := r.missing ++ (without (List.range count) present).map (name, ·)
    extra := r.extra ++ (present.filter (count ≤ ·)).map (name, ·) }

/-- Adds blocks that belong to no file. -/
def addOrphans (r : Report) (keys : List (String × Nat)) : Report :=
  { r with
    orphans := (groupByName keys).flatMap fun (name, indices) => indices.map (name, ·) }

end Report

namespace Volume

variable (v : Volume)

/-- The number of blocks of a catalogued file, `none` if its entry cannot be right. -/
def soundCount (name : String) : ClientM (Option Nat) := fun client =>
  match v.length name client with
  | .ok length client => .ok (v.storedCount name length).toOption client
  | .error e client => if e.kind = .inconsistent then .ok none client else .error e client

/-- Looks at files one by one. `keys` are the block keys of files not looked at yet. -/
def examine : List String → List (String × Nat) → Report → ClientM Report
  | [], keys, report => pure (report.addOrphans keys)
  | name :: rest, keys, report => do
    let others := keys.filter (·.1 ≠ name)
    match ← v.soundCount name with
    | none => examine rest others (report.addBad name)
    | some count => examine rest others (report.addFile name count (indicesOf name keys))

/-- Checks the two tables against each other. -/
def check : ClientM Report := do
  let keys ← v.storedKeys
  v.examine (← v.names) keys .empty

end Volume

/-- Checks the tables of a directory. -/
def Directory.check (d : Directory) : ClientM Report := do
  give (d.ensureOpen "check_consistency")
  d.volume.check

end BlockDir
