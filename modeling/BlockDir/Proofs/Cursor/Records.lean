import BlockDir.Bytes.Lemmas
import BlockDir.Cursor.Datum
import BlockDir.Proofs.Cursor.Views
import BlockDir.Proofs.Snappy.Format
import BlockDir.Proofs.Text.Utf8

/-!
# Values are read back as they were written

A read takes some bytes if, from a cursor with these bytes ahead, it comes to a value and moves just
past them, whatever lies behind (`Reader.Takes`). The reads of each shape take exactly the stored forms
of the values of that shape (`Datum.Fits.takes`), so values that were written one after another are
read back in the same order (`Reader.takes_all`).
-/

namespace BlockDir

namespace Word

/-- Whether a signed number fits in a word of `bits` bits. -/
def Fits (bits : Nat) (i : Int) : Prop := -2 ^ (bits - 1) ≤ i ∧ i < 2 ^ (bits - 1)

instance (bits : Nat) (i : Int) : Decidable (Fits bits i) := inferInstanceAs (Decidable (_ ∧ _))

variable {bits : Nat} {i : Int}

theorem ofInt_lt (bits : Nat) (i : Int) : ofInt bits i < 2 ^ bits := BitVec.isLt _

/-- A number that fits is read back. -/
theorem toInt_ofInt_of_fits (hbits : 0 < bits) (h : Fits bits i) : toInt bits (ofInt bits i) = i := by
  rw [toInt_ofInt]
  exact BitVec.toInt_ofInt_eq_self hbits h.1 h.2

theorem ofInt_natCast {n : Nat} (h : n < 2 ^ bits) : ofInt bits n = n := by
  rw [ofInt, BitVec.ofInt_natCast, BitVec.toNat_ofNat, Nat.mod_eq_of_lt h]

end Word

namespace Datum

/-- The shape of a value. -/
def shape : Datum → Shape
  | byte _ => .byte
  | bytes value => .bytes value.length
  | int16 _ => .int16
  | int32 _ => .int32
  | int64 _ => .int64
  | varint32 _ => .varint32
  | varint64 _ => .varint64
  | text _ => .text

/-- Whether a value is one that its stored form can hold. -/
def Fits : Datum → Prop
  | byte _ | bytes _ => True
  | int16 value => Word.Fits 16 value
  | int32 value | varint32 value => Word.Fits 32 value
  | int64 value | varint64 value => Word.Fits 64 value
  | text value => (Utf8.encode value).length < 2 ^ 31

instance : (datum : Datum) → Decidable datum.Fits
  | byte _ | bytes _ => inferInstanceAs (Decidable True)
  | int16 value => inferInstanceAs (Decidable (Word.Fits 16 value))
  | int32 value | varint32 value => inferInstanceAs (Decidable (Word.Fits 32 value))
  | int64 value | varint64 value => inferInstanceAs (Decidable (Word.Fits 64 value))
  | text value => inferInstanceAs (Decidable ((Utf8.encode value).length < 2 ^ 31))

/-- The bytes that a value takes. -/
def stored (datum : Datum) : Bytes := datum.encode.toOption.getD []

theorem encode_text {value : String} (h : (text value).Fits) :
    (text value).encode =
      .ok (Varint.encode (Utf8.encode value).length ++ Utf8.encode value) := by
  have hshort : ¬ maxTextLength < (Utf8.encode value).length := Nat.not_lt.2 (Nat.le_of_lt_succ h)
  simp only [encode, hshort, if_false]

theorem encode_eq_ok {datum : Datum} (h : datum.Fits) : datum.encode = .ok datum.stored := by
  cases datum with
  | text value =>
    rw [stored, encode_text h]
    rfl
  | byte | bytes | int16 | int32 | int64 | varint32 | varint64 => rfl

end Datum

namespace Reader

variable {α β : Type} {r : Reader} {bytes more : Bytes}

/-- A cursor on the blocks of some content, from the position of which on its view holds `bytes`. -/
def Ahead (r : Reader) (bytes : Bytes) : Prop :=
  ∃ (n : Nat) (content : Bytes) (w : View),
    0 < n ∧ r.Shows n content w ∧ w.content.drop w.position = bytes

/-- The cursor `count` bytes further on. -/
def advance (r : Reader) (count : Nat) : Reader := { r with position := r.position + count }

theorem ahead_new (description : String) {n : Nat} (hn : 0 < n) (content : Bytes) :
    (Reader.new description (LoadedFile.ofContent n content)).Ahead content :=
  ⟨n, content, _, hn, shows_new description n content, rfl⟩

theorem Ahead.length_eq (h : r.Ahead bytes) : r.position + bytes.length = r.length := by
  obtain ⟨n, content, w, -, hshows, rfl⟩ := h
  have hahead := hshows.ahead
  rw [List.length_drop, hshows.length, hshows.position]
  omega

theorem Ahead.advance (h : r.Ahead (bytes ++ more)) : (r.advance bytes.length).Ahead more := by
  have hlength := h.length_eq
  obtain ⟨n, content, w, hn, hshows, hbytes⟩ := h
  rw [List.length_append] at hlength
  have hinside : r.position + bytes.length ≤ r.length := by omega
  refine ⟨n, content, _, hn, hshows.moved hinside, ?_⟩
  show w.content.drop (r.position + bytes.length) = more
  rw [← hshows.position, ← List.drop_drop, hbytes, List.drop_left]

/-- Whether `act` comes to `a` and moves past `bytes` wherever these lie ahead. -/
def Takes (act : ReaderM α) (bytes : Bytes) (a : α) : Prop :=
  ∀ (r : Reader) (rest : Bytes), r.Ahead (bytes ++ rest) → act r = .ok a (r.advance bytes.length)

theorem takes_pure (a : α) : Takes (pure a) [] a := fun _ _ _ => rfl

theorem takes_give {result : Except Error α} {a : α} (h : result = .ok a) :
    Takes (give result) [] a := by
  rw [h]
  exact takes_pure a

theorem Takes.bind {act : ReaderM α} {a : α} {next : α → ReaderM β} {b : β} (h : Takes act bytes a)
    (hnext : Takes (next a) more b) : Takes (act >>= next) (bytes ++ more) b := by
  intro r rest hahead
  rw [List.append_assoc] at hahead
  simp only [Bind.bind, EStateM.bind, h r _ hahead, hnext _ _ hahead.advance]
  simp only [Reader.advance, List.length_append, Nat.add_assoc]

/-- What comes last may take nothing. -/
theorem Takes.last {act : ReaderM α} {a : α} {next : α → ReaderM β} {b : β} (h : Takes act bytes a)
    (hnext : Takes (next a) [] b) : Takes (act >>= next) bytes b := by
  have htakes := h.bind hnext
  rwa [List.append_nil] at htakes

theorem Takes.map {act : ReaderM α} {a : α} (h : Takes act bytes a) (f : α → β) :
    Takes (f <$> act) bytes (f a) := by
  intro r rest hahead
  simp only [Functor.map, EStateM.map, h r rest hahead]

theorem takes_readBytes (bytes : Bytes) : Takes (readBytes bytes.length) bytes bytes := by
  intro r rest hahead
  have hlength := hahead.length_eq
  obtain ⟨n, content, w, hn, hshows, hbytes⟩ := hahead
  rw [List.length_append] at hlength
  have hwithin := hshows.within
  have hread := LoadedFile.bytesAt_ofContent hn content (r.base + r.position) bytes.length (by omega)
  rw [hshows.take_drop (by omega), hbytes, List.take_left] at hread
  rw [readBytes, remaining, if_neg (by omega), hshows.openFile]
  simp only [hread]
  rfl

theorem takes_readByte (byte : UInt8) : Takes readByte [byte] byte := by
  intro r rest hahead
  have hlength := hahead.length_eq
  obtain ⟨n, content, w, hn, hshows, hbytes⟩ := hahead
  rw [List.length_append, List.length_singleton] at hlength
  have hwithin := hshows.within
  have hbyte : content[r.base + r.position]? = some byte := by
    have hinside : r.position + 1 ≤ r.length := by omega
    have hfirst := congrArg (·[0]?) ((hshows.take_drop hinside).trans (congrArg (List.take 1) hbytes))
    simpa using hfirst
  rw [readByte, if_neg (by omega), hshows.openFile]
  have hsize : (LoadedFile.ofContent n content).blockSize = n := rfl
  simp only [hsize, LoadedFile.block_ofContent hn content (r.base + r.position) (by omega),
    LoadedFile.getElem?_block_ofContent hn, hbyte]
  rfl

theorem takes_readFixed (width : Nat) (hwidth : 0 < width) {i : Int} (h : Word.Fits (8 * width) i) :
    Takes (readFixed width) (Bytes.bigEndian width (Word.ofInt (8 * width) i)) i := by
  have hvalue : Word.toInt (8 * width)
      (Bytes.bigEndian width (Word.ofInt (8 * width) i)).toNat = i := by
    have hlt : Word.ofInt (8 * width) i < 256 ^ width := by
      rw [show (256 : Nat) = 2 ^ 8 from rfl, ← Nat.pow_mul]
      exact Word.ofInt_lt _ i
    rw [Bytes.toNat_bigEndian, Nat.mod_eq_of_lt hlt, Word.toInt_ofInt_of_fits (by omega) h]
  have hread := takes_readBytes (Bytes.bigEndian width (Word.ofInt (8 * width) i))
  rw [Bytes.length_bigEndian] at hread
  refine hread.last ?_
  rw [hvalue]
  exact takes_pure i

/-- A row of groups that closes soon enough is read. -/
theorem takes_readGroups_of_closes {groups : Bytes} {limit : Nat} (h : Snappy.Closes groups)
    (hfew : groups.length ≤ limit) :
    Takes (readGroups limit) groups (some (Varint.value groups)) := by
  induction h generalizing limit with
  | @last byte closed =>
    obtain ⟨limit, rfl⟩ := Nat.exists_eq_succ_of_ne_zero (Nat.ne_of_gt hfew)
    refine (takes_readByte byte).last ?_
    simp only [closed, Bool.false_eq_true, if_false]
    exact takes_pure _
  | @more byte groups opened next ih =>
    obtain ⟨limit, rfl⟩ := Nat.exists_eq_succ_of_ne_zero (Nat.ne_of_gt (Nat.lt_of_lt_of_le
      (Nat.succ_pos _) hfew))
    refine (takes_readByte byte).bind ?_
    simp only [opened, if_true]
    exact (ih (Nat.le_of_succ_le_succ hfew)).last (takes_pure _)

theorem takes_readVarint_of_closes {groups : Bytes} {limit : Nat} (h : Snappy.Closes groups)
    (hfew : groups.length ≤ limit) (bits : Nat) :
    Takes (readVarint limit bits) groups (Word.toInt bits (Varint.value groups)) :=
  (takes_readGroups_of_closes h hfew).last (takes_pure _)

theorem takes_readVarint {limit n : Nat} (hlimit : 0 < limit) (h : n < 128 ^ limit) (bits : Nat) :
    Takes (readVarint limit bits) (Varint.encode n) (Word.toInt bits n) := by
  have hfew := Snappy.length_varint_le hlimit h
  have htakes := takes_readVarint_of_closes (Snappy.closes_varint n) hfew bits
  rwa [Varint.value_encode] at htakes

theorem takes_readVarint_ofInt {limit bits : Nat} (hbits : 0 < bits) (hlimit : 2 ^ bits ≤ 128 ^ limit)
    {i : Int} (h : Word.Fits bits i) :
    Takes (readVarint limit bits) (Varint.encode (Word.ofInt bits i)) i := by
  have hpos : 0 < limit := by
    by_contra hzero
    obtain rfl : limit = 0 := by omega
    exact absurd hlimit (Nat.not_le.2 (Nat.one_lt_two_pow (Nat.ne_of_gt hbits)))
  have htakes := takes_readVarint hpos (Nat.lt_of_lt_of_le (Word.ofInt_lt bits i) hlimit) bits
  rw [Word.toInt_ofInt_of_fits hbits h] at htakes
  exact htakes

theorem takes_readText {text : String} (h : (Utf8.encode text).length < 2 ^ 31) :
    Takes readText (Varint.encode (Utf8.encode text).length ++ Utf8.encode text) text := by
  have hfits : Word.Fits 32 (Utf8.encode text).length := ⟨by omega, by omega⟩
  have hlength : Takes readVarint32 (Varint.encode (Utf8.encode text).length)
      (Utf8.encode text).length := by
    have htakes := takes_readVarint_ofInt (by decide) (by decide : 2 ^ 32 ≤ 128 ^ 5) hfits
    rwa [Word.ofInt_natCast (by omega)] at htakes
  refine hlength.bind ?_
  rw [if_neg (by omega)]
  refine (takes_readBytes (Utf8.encode text)).last (takes_give ?_)
  rw [Utf8.decode_encode]
  rfl

end Reader

/-- A value that fits is read back from its stored form, whatever follows. -/
theorem Datum.Fits.takes {datum : Datum} (h : datum.Fits) :
    Reader.Takes datum.shape.read datum.stored datum := by
  cases datum with
  | byte value => exact (Reader.takes_readByte value).map Datum.byte
  | bytes value => exact (Reader.takes_readBytes value).map Datum.bytes
  | int16 value => exact (Reader.takes_readFixed 2 (by decide) h).map Datum.int16
  | int32 value => exact (Reader.takes_readFixed 4 (by decide) h).map Datum.int32
  | int64 value => exact (Reader.takes_readFixed 8 (by decide) h).map Datum.int64
  | varint32 value =>
    exact (Reader.takes_readVarint_ofInt (by decide) (by decide) h).map Datum.varint32
  | varint64 value =>
    exact (Reader.takes_readVarint_ofInt (by decide) (by decide) h).map Datum.varint64
  | text value =>
    have hstored := (encode_eq_ok h).symm.trans (encode_text h)
    rw [Except.ok.inj hstored]
    exact (Reader.takes_readText h).map Datum.text

/-- Values that fit are read back one after another. -/
theorem Reader.takes_all {data : List Datum} (h : ∀ datum ∈ data, datum.Fits) :
    Takes ((data.map Datum.shape).mapM Shape.read) (data.map Datum.stored).flatten data := by
  induction data with
  | nil => exact takes_pure []
  | cons datum rest ih =>
    obtain ⟨hdatum, hrest⟩ := List.forall_mem_cons.1 h
    rw [List.map_cons, List.map_cons, List.flatten_cons, List.mapM_cons]
    exact hdatum.takes.bind ((ih hrest).last (takes_pure _))

end BlockDir
