import BlockDir.Proofs.Cursor.Records

/-!
# Variable-length numbers as they are found

What a cursor makes of any bytes that lie ahead when it is to read a variable-length number. A row of
groups that closes soon enough is read, whatever its length and whatever it denotes; of the number that
it denotes only the low bits are kept, so a number that does not fit comes out as another one
(`Reader.readVarint_keeps_low_bits`, `Reader.readVarint_drops_high_bits`). Only a row that does not
close soon enough is refused.
-/

namespace BlockDir

open Snappy (Closes)

/-- Of the bytes ahead, either the first few are a row of groups that closes, or none of the first few
closes it, or they end before that. -/
theorem Varint.row_cases (limit : Nat) (bytes : Bytes) :
    (∃ groups rest, bytes = groups ++ rest ∧ Closes groups ∧ groups.length ≤ limit) ∨
      (∃ groups rest, bytes = groups ++ rest ∧ groups.length = limit ∧
        ∀ byte ∈ groups, isOpen byte = true) ∨
      bytes.length < limit ∧ ∀ byte ∈ bytes, isOpen byte = true := by
  induction limit generalizing bytes with
  | zero => exact .inr (.inl ⟨[], bytes, rfl, rfl, by simp⟩)
  | succ limit ih =>
    cases bytes with
    | nil => exact .inr (.inr ⟨Nat.succ_pos limit, by simp⟩)
    | cons byte bytes =>
      cases hopen : isOpen byte with
      | false => exact .inl ⟨[byte], bytes, rfl, .last hopen, by simp⟩
      | true =>
        obtain ⟨groups, rest, rfl, hcloses, hfew⟩ | ⟨groups, rest, rfl, rfl, hall⟩ | ⟨hfew, hall⟩ :=
          ih bytes
        · exact .inl ⟨byte :: groups, rest, rfl, .more hopen hcloses, Nat.succ_le_succ hfew⟩
        · exact .inr (.inl ⟨byte :: groups, rest, rfl, rfl, List.forall_mem_cons.2 ⟨hopen, hall⟩⟩)
        · exact .inr (.inr ⟨Nat.succ_lt_succ hfew, List.forall_mem_cons.2 ⟨hopen, hall⟩⟩)

namespace Word

/-- A word of low bits, read as a signed number. -/
theorem ofInt_toInt (bits n : Nat) : ofInt bits (toInt bits n) = n % 2 ^ bits := by
  rw [ofInt, toInt, BitVec.ofInt_toInt, BitVec.toNat_ofNat]

theorem fits_toInt (bits n : Nat) : Fits bits (toInt bits n) :=
  ⟨BitVec.le_toInt _, BitVec.toInt_lt⟩

/-- A signed number is known from its word. -/
theorem eq_toInt_of_ofInt {bits n : Nat} {i : Int} (hbits : 0 < bits) (hfits : Fits bits i)
    (h : ofInt bits i = n % 2 ^ bits) : i = toInt bits n := by
  rw [← toInt_ofInt_of_fits hbits hfits, ← toInt_ofInt_of_fits hbits (fits_toInt bits n), ofInt_toInt,
    h]

end Word

namespace Reader

variable {r : Reader} {bytes groups : Bytes} {limit bits : Nat}

theorem readByte_at_end (h : r.Ahead []) :
    ∃ e, readByte r = .error e r ∧ e.kind = .endOfStream := by
  have hlength := h.length_eq
  rw [List.length_nil] at hlength
  exact ⟨_, if_pos (Nat.le_of_eq hlength.symm), rfl⟩

/-- Open groups are read as long as they are not too many. -/
theorem takes_readGroups_of_open (h : ∀ byte ∈ groups, Varint.isOpen byte = true) :
    Takes (readGroups groups.length) groups none := by
  induction groups with
  | nil => exact takes_pure none
  | cons byte groups ih =>
    obtain ⟨hopen, hrest⟩ := List.forall_mem_cons.1 h
    refine (takes_readByte byte).bind ?_
    simp only [hopen, if_true]
    exact (ih hrest).last (takes_pure _)

/-- A row of groups that the view ends amid. -/
theorem readGroups_at_end (h : ∀ byte ∈ groups, Varint.isOpen byte = true)
    (hfew : groups.length < limit) (hahead : r.Ahead groups) :
    ∃ e after, readGroups limit r = .error e after ∧ e.kind = .endOfStream := by
  induction groups generalizing limit r with
  | nil =>
    obtain ⟨limit, rfl⟩ := Nat.exists_eq_succ_of_ne_zero (Nat.ne_of_gt hfew)
    obtain ⟨e, hread, hkind⟩ := readByte_at_end hahead
    exact ⟨e, r, by simp only [readGroups, Bind.bind, EStateM.bind, hread], hkind⟩
  | cons byte groups ih =>
    obtain ⟨limit, rfl⟩ := Nat.exists_eq_succ_of_ne_zero (Nat.ne_of_gt (Nat.zero_lt_of_lt hfew))
    obtain ⟨hopen, hrest⟩ := List.forall_mem_cons.1 h
    have hnext : (r.advance [byte].length).Ahead groups := Ahead.advance hahead
    obtain ⟨e, after, hread, hkind⟩ := ih hrest (Nat.lt_of_succ_lt_succ hfew) hnext
    refine ⟨e, after, ?_, hkind⟩
    simp only [readGroups, Bind.bind, EStateM.bind, takes_readByte byte r groups hahead, hopen, if_true]
    simp only [List.length_singleton] at hread
    simp only [List.length_singleton, hread]

theorem readVarint_of_open (h : ∀ byte ∈ groups, Varint.isOpen byte = true) {rest : Bytes}
    (hahead : r.Ahead (groups ++ rest)) (bits : Nat) :
    ∃ e after, readVarint groups.length bits r = .error e after ∧ e.kind = .codec := by
  refine ⟨.undecodable (.longVarint groups.length), r.advance groups.length, ?_, rfl⟩
  simp only [readVarint, Bind.bind, EStateM.bind, takes_readGroups_of_open h r rest hahead]
  rfl

theorem readVarint_at_end (h : ∀ byte ∈ groups, Varint.isOpen byte = true)
    (hfew : groups.length < limit) (hahead : r.Ahead groups) (bits : Nat) :
    ∃ e after, readVarint limit bits r = .error e after ∧ e.kind = .endOfStream := by
  obtain ⟨e, after, hread, hkind⟩ := readGroups_at_end h hfew hahead
  exact ⟨e, after, by simp only [readVarint, Bind.bind, EStateM.bind, hread], hkind⟩

/-- How a number of `bits` bits is read from a row of at most `limit` groups where `bytes` lie ahead. -/
structure ReadsRow (act : ReaderM Int) (limit bits : Nat) (r : Reader) (bytes : Bytes) : Prop where
  /-- A number is read just from a row that closes soon enough, to the end of the row. Its word has the
  low bits of what the row denotes. -/
  read : ∀ (i : Int) (after : Reader), act r = .ok i after ↔ ∃ groups rest, bytes = groups ++ rest ∧
    Closes groups ∧ groups.length ≤ limit ∧ after = r.advance groups.length ∧ Word.Fits bits i ∧
    Word.ofInt bits i = Varint.value groups % 2 ^ bits
  /-- What is read is what the row denotes just if that fits. -/
  exact_iff : ∀ {groups rest : Bytes}, bytes = groups ++ rest → Closes groups →
    groups.length ≤ limit → ∃ i, act r = .ok i (r.advance groups.length) ∧
      (Word.ofInt bits i = Varint.value groups ↔ Varint.value groups < 2 ^ bits)
  /-- A row that goes on too long is refused for its coding. -/
  long : (∃ e after, act r = .error e after ∧ e.kind = .codec) ↔ ∃ groups rest,
    bytes = groups ++ rest ∧ groups.length = limit ∧ ∀ byte ∈ groups, Varint.isOpen byte = true
  /-- A row that the view ends amid is refused as the end of the stream. -/
  short : (∃ e after, act r = .error e after ∧ e.kind = .endOfStream) ↔
    bytes.length < limit ∧ ∀ byte ∈ bytes, Varint.isOpen byte = true

theorem readsRow_readVarint (limit : Nat) {bits : Nat} (hbits : 0 < bits)
    (hahead : r.Ahead bytes) : ReadsRow (readVarint limit bits) limit bits r bytes where
  read := by
    intro i after
    constructor
    · intro hread
      obtain ⟨groups, rest, rfl, hcloses, hfew⟩ | ⟨groups, rest, rfl, rfl, hopen⟩ | ⟨hfew, hopen⟩ :=
        Varint.row_cases limit bytes
      · rw [takes_readVarint_of_closes hcloses hfew bits r rest hahead] at hread
        cases hread
        exact ⟨groups, rest, rfl, hcloses, hfew, rfl, Word.fits_toInt bits _, Word.ofInt_toInt bits _⟩
      · obtain ⟨e, last, hfails, -⟩ := readVarint_of_open hopen hahead bits
        rw [hfails] at hread
        cases hread
      · obtain ⟨e, last, hfails, -⟩ := readVarint_at_end hopen hfew hahead bits
        rw [hfails] at hread
        cases hread
    · rintro ⟨groups, rest, rfl, hcloses, hfew, rfl, hfits, hword⟩
      rw [takes_readVarint_of_closes hcloses hfew bits r rest hahead,
        Word.eq_toInt_of_ofInt hbits hfits hword]
  exact_iff := by
    rintro groups rest rfl hcloses hfew
    refine ⟨_, takes_readVarint_of_closes hcloses hfew bits r rest hahead, ?_⟩
    rw [Word.ofInt_toInt]
    exact Nat.mod_eq_iff_lt (Nat.ne_of_gt (Nat.two_pow_pos bits))
  long := by
    constructor
    · rintro ⟨e, after, hread, hkind⟩
      obtain ⟨groups, rest, rfl, hcloses, hfew⟩ | hlong | ⟨hfew, hopen⟩ :=
        Varint.row_cases limit bytes
      · rw [takes_readVarint_of_closes hcloses hfew bits r rest hahead] at hread
        cases hread
      · exact hlong
      · obtain ⟨e', last, hfails, hkind'⟩ := readVarint_at_end hopen hfew hahead bits
        rw [hfails] at hread
        cases hread
        rw [hkind] at hkind'
        cases hkind'
    · rintro ⟨groups, rest, rfl, rfl, hopen⟩
      exact readVarint_of_open hopen hahead bits
  short := by
    constructor
    · rintro ⟨e, after, hread, hkind⟩
      obtain ⟨groups, rest, rfl, hcloses, hfew⟩ | ⟨groups, rest, rfl, rfl, hopen⟩ | hshort :=
        Varint.row_cases limit bytes
      · rw [takes_readVarint_of_closes hcloses hfew bits r rest hahead] at hread
        cases hread
      · obtain ⟨e', last, hfails, hkind'⟩ := readVarint_of_open hopen hahead bits
        rw [hfails] at hread
        cases hread
        rw [hkind] at hkind'
        cases hkind'
      · exact hshort
    · rintro ⟨hfew, hopen⟩
      exact readVarint_at_end hopen hfew hahead bits

/-- Whatever lies ahead, numbers of 32 and of 64 bits are read from a row of at most five and ten
groups, as far as their low bits go. -/
theorem readVarint_keeps_low_bits (hahead : r.Ahead bytes) :
    ReadsRow readVarint32 5 32 r bytes ∧ ReadsRow readVarint64 10 64 r bytes :=
  ⟨readsRow_readVarint 5 (by decide) hahead, readsRow_readVarint 10 (by decide) hahead⟩

/-- One, in two groups more than it takes, across the blocks of a file. -/
theorem readVarint_keeps_low_bits_padded :
    let r := Reader.new "a" (LoadedFile.ofContent 2 [129, 128, 0, 7])
    readVarint32 r = .ok 1 (r.advance 3) := by
  intro r
  have hahead : r.Ahead [129, 128, 0, 7] := ahead_new "a" (by decide) _
  have hcloses : Closes [129, 128, 0] :=
    .more (by decide) (.more (by decide) (.last (by decide)))
  exact ((readVarint_keeps_low_bits hahead).1.read 1 (r.advance 3)).2
    ⟨[129, 128, 0], [7], rfl, hcloses, by decide, rfl, by decide, by decide⟩

/-- Five groups that denote a number of 35 bits and ten that denote one of 70 bits: both are read as -1,
which stands for all 32 and all 64 bits. -/
theorem readVarint_drops_high_bits :
    let five : Bytes := [255, 255, 255, 255, 127]
    let ten : Bytes := [255, 255, 255, 255, 255, 255, 255, 255, 255, 127]
    Varint.value five = 2 ^ 35 - 1 ∧ Varint.value ten = 2 ^ 70 - 1 ∧
      (outcome (readVarint32 (Reader.new "a" (LoadedFile.ofContent 4 five)))).toOption = some (-1) ∧
      (outcome (readVarint64 (Reader.new "a" (LoadedFile.ofContent 4 ten)))).toOption = some (-1) ∧
      Word.ofInt 32 (-1) = 2 ^ 32 - 1 ∧ Word.ofInt 64 (-1) = 2 ^ 64 - 1 := by
  decide +kernel

end Reader

end BlockDir
