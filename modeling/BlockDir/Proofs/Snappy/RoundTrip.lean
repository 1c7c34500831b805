import BlockDir.Codec
import BlockDir.Proofs.Snappy.Compressing

/-!
# Blocks come back

A stored form is read as what it stands for (`Codec.decode_eq_ok_iff`). So a block is read back as it
was whatever compressor made its stream, and the only blocks that are not stored are those for which no
room can be reserved (`Codec.round_trip`).
-/

namespace BlockDir.Codec

/-- What a stored form stands for. -/
def StandsFor : Codec → (stored block : Bytes) → Prop
  | plain, stored, block => stored = block
  | snappy, stored, block => Snappy.StreamOf stored block

/-- What may be stored for a block. -/
def Written : Codec → (stored block : Bytes) → Prop
  | plain, stored, block => stored = block
  | snappy, stored, block => Snappy.Written stored block

variable {codec : Codec} {compress : Bytes → Bytes} {stored block : Bytes}

/-- A stored form is read as what it stands for. -/
theorem decode_eq_ok_iff : codec.decode stored = .ok block ↔ codec.StandsFor stored block := by
  cases codec with
  | plain => exact ⟨Except.ok.inj, congrArg Except.ok⟩
  | snappy =>
    rw [StandsFor, ← Snappy.decode_eq_ok_iff, decode]
    cases Snappy.decode stored <;> simp [Except.mapError]

/-- What may be stored for a block is read as the block. -/
theorem decode_of_written (h : codec.Written stored block) : codec.decode stored = .ok block := by
  cases codec with
  | plain => exact congrArg Except.ok h
  | snappy =>
    rw [decode, Snappy.decode_of_written h]
    rfl

/-- What is put into its stored form may be stored so. -/
theorem written_of_encodeWith (hcompress : Snappy.Compresses compress)
    (h : codec.encodeWith compress block = .ok stored) : codec.Written stored block := by
  cases codec with
  | plain => exact (Except.ok.inj h).symm
  | snappy =>
    rw [encodeWith] at h
    split at h
    · cases h
    · rename_i hroom
      obtain rfl := Except.ok.inj h
      exact hcompress block (Snappy.room_le_iff.1 (Nat.not_lt.1 hroom))

/-- Blocks that are not too long are put into their stored form. -/
theorem exists_encodeWith (compress : Bytes → Bytes)
    (h : codec = plain ∨ block.length ≤ Snappy.longest) :
    ∃ stored, codec.encodeWith compress block = .ok stored := by
  cases codec with
  | plain => exact ⟨block, rfl⟩
  | snappy =>
    have hroom := Snappy.room_le_iff.2 (h.resolve_left nofun)
    exact ⟨compress block, if_neg (Nat.not_lt.2 hroom)⟩

/-- A block that is not too long gets its stored form. -/
theorem encode_eq_ok (codec : Codec) (h : block.length ≤ Snappy.longest) :
    codec.encode block = .ok (codec.form block) := by
  cases codec with
  | plain => rfl
  | snappy => exact if_neg (Nat.not_lt.2 (Snappy.room_le_iff.2 h))

/-- Whatever is encoded is read back as it was. -/
theorem decode_of_encode (h : codec.encode block = .ok stored) : codec.decode stored = .ok block :=
  decode_of_written (written_of_encodeWith Snappy.compresses_encode h)

/-- The stored form of a block gives the block back. -/
theorem decode_form (codec : Codec) (h : block.length ≤ Snappy.longest) :
    codec.decode (codec.form block) = .ok block :=
  decode_of_encode (codec.encode_eq_ok h)

/-- Whatever compressor is used: a block that is stored as it is, or for the stream of which room can be
reserved, is put into a form that may be stored for it, and that is read back as the block; a longer
block is refused. Whoever wrote what may be stored for a block, it is read as the block. -/
theorem round_trip (hcompress : Snappy.Compresses compress) :
    (∀ (codec : Codec) (block : Bytes), codec = plain ∨ block.length ≤ 3681400511 →
      ∃ stored, codec.encodeWith compress block = .ok stored ∧ codec.Written stored block ∧
        codec.decode stored = .ok block) ∧
    (∀ block : Bytes, 3681400511 < block.length →
      snappy.encodeWith compress block = .error (.unencodable block.length)) ∧
    ∀ (codec : Codec) (stored block : Bytes), codec.Written stored block →
      codec.decode stored = .ok block := by
  refine ⟨fun codec block hshort => ?_, fun block hlong => ?_, fun _ _ _ => decode_of_written⟩
  · obtain ⟨stored, hencode⟩ := exists_encodeWith compress hshort
    have hwritten := written_of_encodeWith hcompress hencode
    exact ⟨stored, hencode, hwritten, decode_of_written hwritten⟩
  · have hroom : Snappy.maxLength < Snappy.room block.length :=
      Nat.lt_of_not_le fun hfits => Nat.not_lt.2 (Snappy.room_le_iff.1 hfits) hlong
    exact if_pos hroom

/-- Five bytes, which go into one literal; and a stream that says twenty equal bytes with one literal and
a copy that runs into its own output. -/
theorem round_trip_overlapping :
    Snappy.Compresses Snappy.encode ∧
    (∃ stored, snappy.encodeWith Snappy.encode [1, 2, 3, 4, 5] = .ok stored ∧
      stored = [5, 16, 1, 2, 3, 4, 5] ∧ snappy.decode stored = .ok [1, 2, 3, 4, 5]) ∧
    snappy.decode [20, 0, 7, 74, 1, 0] = .ok (List.replicate 20 7) := by
  obtain ⟨hshort, -, hreads⟩ := round_trip Snappy.compresses_encode
  refine ⟨Snappy.compresses_encode, ?_, ?_⟩
  · obtain ⟨stored, hencode, -, hdecode⟩ := hshort .snappy [1, 2, 3, 4, 5] (.inr (by decide))
    have hform : snappy.encodeWith Snappy.encode [1, 2, 3, 4, 5] =
        .ok (Snappy.encode [1, 2, 3, 4, 5]) := encode_eq_ok .snappy (by decide)
    have hliteral : Snappy.encode [1, 2, 3, 4, 5] = [5, 16, 1, 2, 3, 4, 5] := by decide +kernel
    obtain rfl := Except.ok.inj (hform.symm.trans hencode)
    exact ⟨_, hencode, hliteral, hdecode⟩
  · refine hreads _ _ _ ⟨[20], [0, 7, 74, 1, 0], rfl, ?_, ?_⟩
    · exact ⟨.last (by decide), by decide, by decide, by decide⟩
    · have hliteral : (Snappy.Element.literal [7]).Picks [0, 7] :=
        ⟨.short (by decide) (by decide) (by decide), by rintro _ ⟨⟩ -; rfl⟩
      have hcopy : (Snappy.Element.copy (Bytes.ofLittleEndian [1, 0]) 19).Picks [74, 1, 0] :=
        ⟨.middle (by decide) (by decide) (by decide), nofun⟩
      have hadds : (Snappy.Element.copy (Bytes.ofLittleEndian [1, 0]) 19).Adds [7]
          (List.replicate 19 7) := ⟨by decide, by decide, by decide, by decide⟩
      exact .cons hliteral rfl (.cons hcopy hadds .nil)

/-- A block of fewer than 2 ^ 32 bytes that is refused, as the room for its stream would be too large,
whatever compressor is used; and a row of groups for the length 0 that the reader takes for no header,
as it is too long. -/
theorem round_trip_limits :
    (List.replicate 3681400512 (0 : UInt8)).length ≤ 2 ^ 32 - 1 ∧
    (∀ compress, snappy.encodeWith compress (List.replicate 3681400512 0) =
      .error (.unencodable 3681400512)) ∧
    Snappy.Closes (List.replicate 10 128 ++ [0]) ∧
    Varint.value (List.replicate 10 128 ++ [0]) = 0 ∧
    snappy.decode (List.replicate 10 128 ++ [0]) = .error (.undecodable (.snappy .header)) := by
  have hlength := @List.length_replicate UInt8 3681400512 0
  have hcloses : ∀ count, Snappy.Closes (List.replicate count 128 ++ [0]) := by
    intro count
    induction count with
    | zero => exact .last (by decide)
    | succ count ih => exact .more (by decide) ih
  refine ⟨?_, fun compress => ?_, hcloses 10, by decide, rfl⟩
  · rw [hlength]
    decide
  · rw [encodeWith, hlength]
    exact if_pos (by decide)

end BlockDir.Codec
