import BlockDir.Checksum.Forks

/-!
# Checksums in pieces

Running checksums are handled in any way: each may be fed pieces, copied, exchanged with another, or
dropped. What they are at the end is told by handling the bytes that they were fed in the same way
(`Checksum.handled_eq_map`), so each holds the checksum of its own bytes, however they were cut and
whatever became of the others. The copies on the stack of `Forks` are handled like that
(`Forks.builders_run`).
-/

namespace BlockDir

/-- What can be done with things that are numbered from the front. -/
inductive Handling where
  | feed (number : Nat) (data : Bytes)
  | write (number : Nat) (data : Bytes)
  /-- Puts a copy in front. -/
  | copy (number : Nat)
  | swap (one other : Nat)
  | drop (number : Nat)

namespace Handling

variable {α β : Type}

/-- One act on things that are fed with `feed` and written to with `write`. Where there is nothing of the
number, nothing is done. -/
def step (feed write : α → Bytes → α) (kept : List α) : Handling → List α
  | .feed number data => kept.modify number (feed · data)
  | .write number data => kept.modify number (write · data)
  | .copy number => kept[number]?.toList ++ kept
  | .swap one other =>
    match kept[one]?, kept[other]? with
    | some a, some b => (kept.set one b).set other a
    | _, _ => kept
  | .drop number => kept.eraseIdx number

/-- Acts in turn. -/
def run (feed write : α → Bytes → α) (kept : List α) (acts : List Handling) : List α :=
  acts.foldl (step feed write) kept

variable {feed write : α → Bytes → α} {feed' write' : β → Bytes → β} {f : α → β}

theorem map_modify {change : α → α} {change' : β → β} (h : ∀ a, f (change a) = change' (f a))
    (kept : List α) (number : Nat) :
    (kept.modify number change).map f = (kept.map f).modify number change' := by
  refine List.ext_getElem? fun index => ?_
  simp only [List.getElem?_map, List.getElem?_modify]
  cases kept[index]? with
  | none => rfl
  | some a =>
    simp only [Option.map_eq_map, Option.map_some]
    split
    · rw [h]
    · rfl

/-- What things stand for is handled as they are. -/
theorem map_step (hfeed : ∀ a data, f (feed a data) = feed' (f a) data)
    (hwrite : ∀ a data, f (write a data) = write' (f a) data) (kept : List α) (act : Handling) :
    (act.step feed write kept).map f = act.step feed' write' (kept.map f) := by
  cases act with
  | feed number data => exact map_modify (hfeed · data) kept number
  | write number data => exact map_modify (hwrite · data) kept number
  | copy number =>
    simp only [step, List.map_append, List.getElem?_map]
    cases kept[number]? <;> rfl
  | swap one other =>
    simp only [step, List.getElem?_map]
    cases kept[one]? with
    | none => rfl
    | some a =>
      cases kept[other]? with
      | none => rfl
      | some b => simp only [Option.map_some, List.map_set]
  | drop number =>
    simp only [step, List.eraseIdx_eq_take_drop_succ, List.map_append, List.map_take, List.map_drop]

theorem map_run (hfeed : ∀ a data, f (feed a data) = feed' (f a) data)
    (hwrite : ∀ a data, f (write a data) = write' (f a) data) (kept : List α)
    (acts : List Handling) :
    (run feed write kept acts).map f = run feed' write' (kept.map f) acts := by
  induction acts generalizing kept with
  | nil => rfl
  | cons act rest ih =>
    have hnext := ih (act.step feed write kept)
    rw [map_step hfeed hwrite] at hnext
    exact hnext

end Handling

namespace Checksum

/-- Checksums that come from one that was fed nothing are those of the bytes that each was fed. -/
theorem handled_eq_map (enabled : Bool) (acts : List Handling) :
    Handling.run update (fun c data => (c.write data).2) [new enabled] acts =
      (Handling.run (· ++ ·) (· ++ ·) [[]] acts).map (new enabled).update := by
  have hfeed : ∀ fed data : Bytes,
      (new enabled).update (fed ++ data) = ((new enabled).update fed).update data :=
    fun fed data => update_append _ fed data
  simp only [write_snd]
  rw [Handling.map_run hfeed hfeed, List.map_singleton, update_nil]

/-- What a running checksum answers is told by the bytes that it was fed. -/
theorem value_update_new (enabled : Bool) (data : Bytes) :
    ((new enabled).update data).value = if enabled then some (Crc32.checksum data) else none := by
  cases enabled <;> rfl

theorem bytes_update_new (enabled : Bool) (data : Bytes) :
    ((new enabled).update data).bytes = data.length :=
  Nat.zero_add _

end Checksum

namespace Forks

/-- The running checksum, and behind it the copies that wait. -/
def builders (forks : Forks) : List Checksum := forks.current :: forks.waiting

/-- Steps on a stack of `depth` copies, as what is done with the builders. -/
def handlings (depth : Nat) : List Step → List Handling
  | [] => []
  | .feed data :: rest => .feed 0 data :: handlings depth rest
  | .write data :: rest => .write 0 data :: handlings depth rest
  | .fork :: rest => .copy 0 :: handlings (depth + 1) rest
  | .swap :: rest =>
    match depth with
    | 0 => handlings 0 rest
    | depth + 1 => .drop 0 :: handlings depth rest

/-- The builders of a stack are handled from the front. -/
theorem builders_run (forks : Forks) (steps : List Step) :
    (steps.foldl step forks).builders =
      Handling.run Checksum.update (fun c data => (c.write data).2) forks.builders
        (handlings forks.waiting.length steps) := by
  induction steps generalizing forks with
  | nil => rfl
  | cons s rest ih =>
    rw [List.foldl_cons, ih]
    cases s with
    | feed data | write data | fork => rfl
    | swap =>
      obtain ⟨current, waiting⟩ := forks
      cases waiting <;> rfl

end Forks

end BlockDir
