import BlockDir.Link.Fault
import BlockDir.Store.Keyspace

/-!
# Links to stores

A link is a session with one store. Everything that passes over links goes through the wire, which
holds the stores, the armed faults and a record of all calls. `Link.send` is the one way to reach a
store: it records the call, asks whether a fault strikes it, and applies the commands as far as the
fault lets it.
-/

namespace BlockDir

/-- A session with one store. Sessions are numbered in the order in which they were opened. -/
structure Link where
  number : Nat
  store : Nat
  isOpen : Bool

/-- What passed over the wire. -/
inductive Event where
  /-- A session with a store was asked for. -/
  | connect (store : Nat)
  /-- Commands were sent over a link. -/
  | send (mode : Mode) (link : Link) (commands : List Command)
  /-- A link was to be closed. -/
  | close (link : Link)

/-- All stores, and what stands between them and their clients. -/
structure Wire where
  /-- The stores by number; one that is not there is empty. -/
  stores : Std.ExtTreeMap Nat Store
  /-- The faults that wait for calls. -/
  faults : List ArmedFault
  /-- What passed, last event first. -/
  record : List Event
  /-- How many sessions were opened. -/
  opened : Nat

/-- An action on the wire. -/
abbrev WireM := EStateM Error Wire

namespace Wire

/-- A wire with empty stores and no faults. -/
def new : Wire := ⟨∅, [], [], 0⟩

/-- A store by its number. -/
def store (wire : Wire) (number : Nat) : Store := wire.stores.getD number ∅

/-- Replaces a store. -/
def setStore (wire : Wire) (number : Nat) (store : Store) : Wire :=
  { wire with stores := wire.stores.insert number store }

/-- Arms a fault behind those already armed. -/
def arm (wire : Wire) (fault : ArmedFault) : Wire :=
  { wire with faults := wire.faults ++ [fault] }

/-- Records a call and counts it down; answers the fault that strikes it. -/
def note (wire : Wire) (event : Event) (moment : Moment) : Option Fault × Wire :=
  let (fault, faults) := ArmedFault.strike moment wire.faults
  (fault, { wire with faults := faults, record := event :: wire.record })

/-- Opens a session with a store. -/
def connect (number : Nat) : WireM Link := fun wire =>
  match wire.note (.connect number) .connect with
  | (some fault, wire) => .error fault.error wire
  | (none, wire) => .ok ⟨wire.opened, number, true⟩ { wire with opened := wire.opened + 1 }

@[simp] theorem store_setStore (wire : Wire) (number other : Nat) (s : Store) :
    (wire.setStore number s).store other = if number = other then s else wire.store other := by
  simp only [setStore, store, Std.ExtTreeMap.getD_insert, Std.LawfulEqCmp.compare_eq_iff_eq]

end Wire

namespace Link

/-- Applies commands to the store of an open link. Over a closed link nothing but an empty round
trip gets through. -/
def apply (link : Link) (mode : Mode) (commands : List Command) : WireM (List Reply) := fun wire =>
  if link.isOpen || (mode = .pipeline && commands.isEmpty) then
    let (replies, store) := (wire.store link.store).runAll commands
    .ok replies (wire.setStore link.store store)
  else .error (.link .closedLink) wire

/-- Sends commands over a link. -/
def send (link : Link) (mode : Mode) (commands : List Command) : WireM (List Reply) := fun wire =>
  match wire.note (.send mode link commands) (.send mode) with
  | (none, wire) => link.apply mode commands wire
  | (some (.failing none error), wire) => (link.apply mode commands *> throw error) wire
  | (some (.failing (some count) error), wire) =>
    (link.apply .pipeline (commands.take count) *> throw error) wire
  | (some (.garbled change), wire) => (change <$> link.apply mode commands) wire
  | (some (.refused answer), wire) => ((fun _ => answer commands) <$> link.apply mode []) wire

/-- Sends one command; a reply that is lost reads as nil. -/
def execute (link : Link) (command : Command) : WireM Reply :=
  (·.headD .nil) <$> link.send .execute [command]

/-- Closes a link; a failing close leaves it open. -/
def close (link : Link) : WireM Link := fun wire =>
  match wire.note (.close link) .close with
  | (some fault, wire) => .error fault.error wire
  | (none, wire) => .ok { link with isOpen := false } wire

/-- Closes a link that is given up; a failing close changes nothing for its owner. -/
def abandon (link : Link) (wire : Wire) : Wire :=
  match link.close wire with
  | .ok _ wire => wire
  | .error _ wire => wire

/-- Closes a row of links that are given up. -/
def abandonAll (links : List Link) (wire : Wire) : Wire :=
  links.foldl (fun wire link => link.abandon wire) wire

end Link

end BlockDir
