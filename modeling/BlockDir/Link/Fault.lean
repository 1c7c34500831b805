import BlockDir.Error

/-!
# Faults

A fault is armed for a sort of call and counts down the calls of that sort; when it reaches zero it
strikes the call and is spent. If several are due at once, the one armed first strikes and all are
spent.
-/

namespace BlockDir

/-- How commands are sent over a link. -/
inductive Mode where
  /-- One command. -/
  | execute
  /-- Many commands in one round trip. -/
  | pipeline
  /-- Many commands, all or none. -/
  | transaction
deriving DecidableEq

/-- The calls that a fault can strike. -/
inductive Moment where
  | send (mode : Mode)
  | connect
  | close
deriving DecidableEq

/-- What a fault does to the call that it strikes. -/
inductive Fault where
  /-- The call fails with `error`, after its first `applied` commands were applied or, if there is no
  such number, all of them. -/
  | failing (applied : Option Nat) (error : Error)
  /-- Everything is applied, and other replies arrive than those that were sent. -/
  | garbled (change : List Reply → List Reply)
  /-- Nothing is applied, and replies to the commands arrive all the same. -/
  | refused (answer : List Command → List Reply)

namespace Fault

/-- What is reported when a link breaks. -/
def broken : Error := .reported .transport "injected"

/-- The link breaks before anything is applied. -/
def lost : Fault := failing (some 0) broken

/-- The link is found closed before anything is applied. -/
def closed : Fault := failing (some 0) (.reported .closed "injected")

/-- The link breaks after everything was applied. -/
def after : Fault := failing none broken

/-- The link breaks after the first `count` commands were applied. -/
def cut (count : Nat) : Fault := failing (some count) broken

/-- The last reply is missing. -/
def short : Fault := garbled List.dropLast

/-- There is one reply too many. -/
def extra : Fault := garbled (· ++ [.integer 1])

/-- Another reply stands at `index`. -/
def swapped (index : Nat) (reply : Reply) : Fault := garbled (·.set index reply)

/-- What is reported of a call that has no replies. -/
def error : Fault → Error
  | failing _ error => error
  | _ => broken

end Fault

/-- A fault that waits for the `countdown`-th call of its sort from now. -/
structure ArmedFault where
  moment : Moment
  fault : Fault
  countdown : Nat

namespace ArmedFault

/-- The armed faults after the countdown for a call. -/
def countDown (moment : Moment) (armed : List ArmedFault) : List ArmedFault :=
  armed.map fun a => if a.moment = moment then { a with countdown := a.countdown - 1 } else a

/-- Whether a fault strikes the call that was just counted. -/
def isDue (moment : Moment) (a : ArmedFault) : Bool := a.moment = moment && a.countdown = 0

/-- The fault that strikes a call, if any, and the faults still armed after it. -/
def strike (moment : Moment) (armed : List ArmedFault) : Option Fault × List ArmedFault :=
  let counted := countDown moment armed
  ((counted.find? (isDue moment)).map (·.fault), counted.filter fun a => !isDue moment a)

@[simp] theorem strike_nil (moment : Moment) : strike moment [] = (none, []) := rfl

end ArmedFault

end BlockDir
