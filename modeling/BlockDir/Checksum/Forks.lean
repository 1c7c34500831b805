import BlockDir.Checksum.Basic

/-!
# Forked checksums

A running checksum may be copied at any point, and the copy taken up again later. Copies wait on a
stack: forking puts one there, swapping goes on with the last one.
-/

namespace BlockDir

/-- A running checksum with copies of earlier ones. -/
structure Forks where
  current : Checksum
  waiting : List Checksum

namespace Forks

/-- What can be done with a running checksum. -/
inductive Step where
  | feed (data : Bytes)
  | write (data : Bytes)
  | fork
  | swap

/-- A checksum of nothing yet. -/
def new (enabled : Bool) : Forks := ⟨Checksum.new enabled, []⟩

/-- One step. Swapping when no copy waits does nothing. -/
def step (forks : Forks) : Step → Forks
  | .feed data => { forks with current := forks.current.update data }
  | .write data => { forks with current := (forks.current.write data).2 }
  | .fork => { forks with waiting := forks.current :: forks.waiting }
  | .swap =>
    match forks.waiting with
    | [] => forks
    | copy :: waiting => ⟨copy, waiting⟩

end Forks

end BlockDir
