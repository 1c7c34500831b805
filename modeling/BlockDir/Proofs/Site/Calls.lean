import BlockDir.Proofs.Directory.Files
import BlockDir.Proofs.Directory.Mutations

/-!
# Sites and shelves

A site is any number of directories that share tables, with the backends that serve them and the
outputs that they handed out. A shelf is what its users should see: a map from names to contents,
and outputs that collect bytes. Both answer the same calls.
-/

namespace BlockDir

/-- A call to one of several directories, or to an output. Outputs are numbered in the order in
which they were created. -/
inductive Call (ι : Type) where
  | create (i : ι) (name : String)
  | write (number : Nat) (data : Bytes)
  | close (number : Nat)
  | drop (number : Nat)
  | delete (i : ι) (name : String)
  | rename (i : ι) (source dest : String)
  | read (i : ι) (name : String)
  | list (i : ι)
  | has (i : ι) (name : String)
  | length (i : ι) (name : String)

/-- How many bytes a call hands over. -/
def Call.size {ι : Type} : Call ι → Nat
  | write _ data => data.length
  | _ => 0

/-- What a call is answered. -/
inductive Answer where
  | done
  | opened (number : Nat)
  | content (bytes : Bytes)
  | names (names : List String)
  | truth (truth : Bool)
  | size (length : Nat)
  | refused (kind : ErrorKind)
  /-- There is no output of that number, or not any more. -/
  | noOutput
deriving DecidableEq

variable {ι κ : Type}

/-- The answers to calls that are made in turn, and the state after them. -/
def runCalls {σ : Type} (step : σ → Call ι → Answer × σ) : σ → List (Call ι) → List Answer × σ
  | state, [] => ([], state)
  | state, call :: rest =>
    let (answer, next) := step state call
    let (answers, last) := runCalls step next rest
    (answer :: answers, last)

/-- Files, and outputs with the names and bytes that they stand for. -/
structure Shelf where
  files : Files
  outputs : List (Option (String × Bytes))

namespace Shelf

/-- A shelf without files. -/
def empty : Shelf := ⟨∅, []⟩

/-- An output that is still there. -/
def output? (shelf : Shelf) (number : Nat) : Option (String × Bytes) := shelf.outputs[number]?.join

/-- The answer to a call, and the shelf after it. -/
def step (shelf : Shelf) : Call ι → Answer × Shelf
  | .create _ name =>
    if name = "" then (.refused .argument, shelf)
    else (.opened shelf.outputs.length, { shelf with outputs := shelf.outputs ++ [some (name, [])] })
  | .write number data =>
    match shelf.output? number with
    | none => (.noOutput, shelf)
    | some (name, content) =>
      (.done, { shelf with outputs := shelf.outputs.set number (some (name, content ++ data)) })
  | .close number =>
    match shelf.output? number with
    | none => (.noOutput, shelf)
    | some (name, content) =>
      (.done, ⟨shelf.files.insert name content, shelf.outputs.set number none⟩)
  | .drop number =>
    match shelf.output? number with
    | none => (.noOutput, shelf)
    | some _ => (.done, { shelf with outputs := shelf.outputs.set number none })
  | .delete _ name => (.done, { shelf with files := shelf.files.erase name })
  | .rename _ source dest =>
    match shelf.files[source]? with
    | none => (.refused .notFound, shelf)
    | some content =>
      if source = dest then (.done, shelf)
      else (.done, { shelf with files := (shelf.files.insert dest content).erase source })
  | .read _ name =>
    match shelf.files[name]? with
    | none => (.refused .notFound, shelf)
    | some content => (.content content, shelf)
  | .list _ => (.names shelf.files.keys, shelf)
  | .has _ name => (.truth (decide (name ∈ shelf.files)), shelf)
  | .length _ name => (.size ((shelf.files[name]?.map List.length).getD 0), shelf)

end Shelf

/-- Directories that share tables, each served by one of the backends. -/
structure Site (ι κ : Type) where
  directory : ι → Directory
  backend : κ → Backend
  serving : ι → κ
  wire : Wire
  /-- The outputs by number, each with the directory that created it, until they are gone. -/
  outputs : List (Option (ι × Output))

namespace Site

/-- One directory at work. -/
def desk (site : Site ι κ) (i : ι) : Desk :=
  ⟨site.directory i, site.backend (site.serving i), site.wire, none⟩

/-- The site after one directory worked. -/
def leave [DecidableEq ι] [DecidableEq κ] (site : Site ι κ) (i : ι) (desk : Desk) : Site ι κ :=
  { site with
    directory := Function.update site.directory i desk.directory
    backend := Function.update site.backend (site.serving i) desk.client.backend
    wire := desk.client.wire }

/-- Lets one directory work. -/
def perform [DecidableEq ι] [DecidableEq κ] {α : Type} (site : Site ι κ) (i : ι) (act : DeskM α)
    (answer : α → Answer) : Answer × Site ι κ :=
  match act (site.desk i) with
  | .ok a desk => (answer a, site.leave i desk)
  | .error e desk => (.refused e.kind, site.leave i desk)

/-- An output that is still there, with the directory that created it. -/
def output? (site : Site ι κ) (number : Nat) : Option (ι × Output) := site.outputs[number]?.join

/-- All that a cursor reads from its start. -/
def readOut (reader : Reader) : Answer :=
  match Reader.readBytes reader.length reader with
  | .ok bytes _ => .content bytes
  | .error e _ => .refused e.kind

/-- The answer to a call, and the site after it. An output that is closed or dropped is gone,
whatever comes of it. -/
def step [DecidableEq ι] [DecidableEq κ] (site : Site ι κ) : Call ι → Answer × Site ι κ
  | .create i name =>
    match Desk.createOutput name (site.desk i) with
    | .ok output desk =>
      (.opened site.outputs.length,
        { site.leave i desk with outputs := site.outputs ++ [some (i, output)] })
    | .error e desk => (.refused e.kind, site.leave i desk)
  | .write number data =>
    match site.output? number with
    | none => (.noOutput, site)
    | some (i, output) =>
      match Desk.write output data (site.desk i) with
      | .ok output desk =>
        (.done, { site.leave i desk with outputs := site.outputs.set number (some (i, output)) })
      | .error e desk => (.refused e.kind, site.leave i desk)
  | .close number =>
    match site.output? number with
    | none => (.noOutput, site)
    | some (i, output) =>
      let (answer, after) := site.perform i (Desk.closeOutput output) fun _ => .done
      (answer, { after with outputs := site.outputs.set number none })
  | .drop number =>
    match site.output? number with
    | none => (.noOutput, site)
    | some (i, output) =>
      let (answer, after) := site.perform i (Desk.dropOutput output) fun _ => .done
      (answer, { after with outputs := site.outputs.set number none })
  | .delete i name => site.perform i (Desk.onClient (·.deleteFile name)) fun _ => .done
  | .rename i source dest =>
    site.perform i (Desk.onClient (·.renameFile source dest)) fun _ => .done
  | .read i name => site.perform i (Desk.onClient (·.openInput name)) readOut
  | .list i => site.perform i (Desk.onClient (·.list)) .names
  | .has i name => site.perform i (Desk.onClient (·.fileExists name)) .truth
  | .length i name => site.perform i (Desk.onClient (·.fileLength name)) .size

end Site

end BlockDir
