import BlockDir.Crc32

/-!
# Running checksums

A running checksum takes in a stream piece by piece and can be asked at any point. It may be
switched off, and then only counts bytes.
-/

namespace BlockDir

/-- A CRC-32 in progress. -/
structure Checksum where
  /-- The register, or `none` when switched off. -/
  register : Option UInt32
  /-- How many bytes were taken in. -/
  bytes : Nat

namespace Checksum

/-- A checksum of nothing yet. -/
def new (enabled : Bool) : Checksum :=
  ⟨if enabled then some Crc32.start else none, 0⟩

/-- Takes in more bytes. -/
def update (c : Checksum) (data : Bytes) : Checksum :=
  ⟨c.register.map (Crc32.register · data), c.bytes + data.length⟩

/-- Takes in bytes as a sink does, which answers how many it took: all of them. -/
def write (c : Checksum) (data : Bytes) : Nat × Checksum := (data.length, c.update data)

/-- Whether the checksum is switched on. -/
def isEnabled (c : Checksum) : Bool := c.register.isSome

/-- The check value of the bytes so far. -/
def value (c : Checksum) : Option UInt32 := c.register.map Crc32.finish

/-- The check value when no more bytes are to come, which ends the checksum. -/
def finalize : Checksum → Option UInt32
  | ⟨register, _⟩ => register.map Crc32.finish

@[simp] theorem write_snd (c : Checksum) (data : Bytes) : (c.write data).2 = c.update data := rfl

@[simp] theorem finalize_eq_value (c : Checksum) : c.finalize = c.value := rfl

@[simp] theorem update_nil (c : Checksum) : c.update [] = c := by
  cases c with
  | mk register bytes => cases register <;> rfl

/-- Two pieces in turn are as good as one. -/
theorem update_append (c : Checksum) (a b : Bytes) :
    c.update (a ++ b) = (c.update a).update b := by
  simp only [update, Option.map_map, List.length_append, Nat.add_assoc, Checksum.mk.injEq,
    and_true]
  cases c.register with
  | none => rfl
  | some r => simp [Crc32.register_append]

end Checksum

end BlockDir
