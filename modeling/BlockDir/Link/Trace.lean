import BlockDir.Link.Wire

/-!
# The record of calls as text

One line for each call: what was done, on which store, and the commands, where equal neighbours are
written once with their number.
-/

namespace BlockDir

/-- A command as the record shows it: its verb and its key. -/
def Command.label (command : Command) : String :=
  let verb := match command with
    | .write ⟨_, .delete fields⟩ => s!"{command.verb}({fields.length})"
    | _ => command.verb
  s!"{verb} {Utf8.lossy command.key}"

/-- Runs of equal neighbours with their lengths. -/
def countRuns : List String → List (String × Nat)
  | [] => []
  | label :: rest =>
    match countRuns rest with
    | (next, n) :: runs => if label = next then (next, n + 1) :: runs else (label, 1) :: (next, n) :: runs
    | [] => [(label, 1)]

/-- The commands of one call on one line. -/
def showCommands (commands : List Command) : String :=
  ", ".intercalate ((countRuns (commands.map Command.label)).map fun (label, n) => s!"{label} x{n}")

/-- The name of a way of sending. -/
def Mode.label : Mode → String
  | execute => "execute"
  | pipeline => "pipeline"
  | transaction => "transaction"

/-- The line of one call. -/
def Event.line : Event → String
  | connect store => s!"open {store}"
  | send mode link commands => s!"{mode.label} {link.store}: {showCommands commands}"
  | close link => s!"close {link.store}"

end BlockDir
