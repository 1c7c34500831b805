import BlockDir.Snappy.Element

/-!
# Reading a raw Snappy stream

The reader checks every element before it acts on it: the bytes it needs must be there, a copy must
reach back into the output, and nothing may run past the announced length. `decode` succeeds only
if the elements produce exactly that many bytes. Two of its rules concern streams that no compressor
makes: a length in more than five groups is refused, and a literal may have its length after the tag
though the tag could hold it.
-/

namespace BlockDir.Snappy

/-- Why a stream is refused. -/
inductive DecodeError where
  | empty
  | header
  | tooLong (length : Nat)
  /-- A literal of `length` bytes where `source` bytes are left to read and `room` to write. -/
  | literal (length source room : Nat)
  /-- An offset of `length` bytes where `source` bytes are left to read. -/
  | offsetBytes (length source : Nat)
  /-- A copy from `offset` places back when `produced` bytes are there. -/
  | offset (offset produced : Nat)
  /-- A copy of `length` bytes where `room` bytes are left to write. -/
  | copy (length room : Nat)
  | incomplete (expected produced : Nat)

/-- The report of a refused stream. -/
def DecodeError.message : DecodeError → String
  | empty => "snappy: corrupt input (empty)"
  | header => "snappy: corrupt input (invalid header)"
  | tooLong n =>
    s!"snappy: input buffer (size = {n}) is larger than allowed (size = {maxLength})"
  | literal n source room =>
    s!"snappy: corrupt input (expected literal read of length {n}; " ++
      s!"remaining src: {source}; remaining dst: {room})"
  | offsetBytes n source =>
    s!"snappy: corrupt input (expected copy read of length {n}; remaining src: {source})"
  | offset back produced =>
    s!"snappy: corrupt input (expected valid offset but got offset {back}; " ++
      s!"dst position: {produced})"
  | copy n room =>
    s!"snappy: corrupt input (expected copy write of length {n}; remaining dst: {room})"
  | incomplete expected produced =>
    s!"snappy: corrupt input (header mismatch; expected {expected} decompressed bytes " ++
      s!"but got {produced})"

/-- Reads a variable-length number of at most `limit` groups, and what follows it. -/
def readVarint : (limit : Nat) → Bytes → Option (Nat × Bytes)
  | 0, _ => none
  | _, [] => none
  | limit + 1, byte :: rest =>
    if Varint.isOpen byte then
      (readVarint limit rest).map fun (high, rest) => (Varint.group byte + 128 * high, rest)
    else some (Varint.group byte, rest)

/-- The announced length and the elements' bytes. -/
def readHeader (stream : Bytes) : Except DecodeError (Nat × Bytes) :=
  if stream.isEmpty then .error .empty
  else
    match readVarint 5 stream with
    | none => .error .header
    | some (length, rest) =>
      if maxLength < length then .error (.tooLong length) else .ok (length, rest)

/-- Takes exactly `n` bytes off the front. -/
def split? (n : Nat) (bytes : Bytes) : Option (Bytes × Bytes) :=
  let front := bytes.take n
  if front.length = n then some (front, bytes.drop n) else none

/-- Reads a literal of `length` bytes. -/
def readLiteral (produced total length : Nat) (bytes : Bytes) :
    Except DecodeError (Element × Bytes) :=
  match split? length bytes with
  | some (front, rest) =>
    if total - produced < length then .error (.literal length bytes.length (total - produced))
    else .ok (.literal front, rest)
  | none => .error (.literal length bytes.length (total - produced))

/-- Reads the `width` offset bytes of a copy of `length` bytes; `high` stands above them. -/
def readCopy (produced total length width : Nat) (high : UInt8) (bytes : Bytes) :
    Except DecodeError (Element × Bytes) :=
  match split? width bytes with
  | none => .error (.offsetBytes width bytes.length)
  | some (front, rest) =>
    let offset := Bytes.ofLittleEndian (front ++ [high])
    if offset = 0 || produced < offset then .error (.offset offset produced)
    else if total - produced < length then .error (.copy length (total - produced))
    else .ok (.copy offset length, rest)

/-- Reads the element that begins with `tag`, when `produced` bytes of `total` are there. -/
def Element.read (produced total : Nat) (tag : UInt8) (bytes : Bytes) :
    Except DecodeError (Element × Bytes) :=
  let high := tag.toNat / 4
  match tag.toNat % 4 with
  | 0 =>
    if high < 60 then readLiteral produced total (high + 1) bytes
    else
      match split? (high - 59) bytes with
      | none => .error (.literal (high - 59) bytes.length (total - produced))
      | some (front, rest) =>
        readLiteral produced total (Bytes.ofLittleEndian front + 1) rest
  | 1 => readCopy produced total (high % 8 + 4) 1 (UInt8.ofNat (high / 8)) bytes
  | 2 => readCopy produced total (high + 1) 2 0 bytes
  | _ => readCopy produced total (high + 1) 4 0 bytes

theorem length_of_split? {n : Nat} {bytes front rest : Bytes}
    (h : split? n bytes = some (front, rest)) :
    front.length = n ∧ bytes = front ++ rest := by
  simp only [split?] at h
  split at h
  · rename_i hlen
    simp only [Option.some.injEq, Prod.mk.injEq] at h
    obtain ⟨rfl, rfl⟩ := h
    exact ⟨hlen, (List.take_append_drop n bytes).symm⟩
  · simp at h

theorem readLiteral_shortens {produced total length : Nat} {bytes rest : Bytes} {e : Element}
    (h : readLiteral produced total length bytes = .ok (e, rest)) :
    rest.length ≤ bytes.length := by
  simp only [readLiteral] at h
  split at h
  · rename_i hs
    split at h
    · simp at h
    · simp only [Except.ok.injEq, Prod.mk.injEq] at h
      rw [(length_of_split? hs).2, ← h.2]
      simp
  · simp at h

theorem readCopy_shortens {produced total length width : Nat} {high : UInt8}
    {bytes rest : Bytes} {e : Element} (h : readCopy produced total length width high bytes = .ok (e, rest)) :
    rest.length ≤ bytes.length := by
  simp only [readCopy] at h
  split at h
  · simp at h
  · rename_i hs
    split at h
    · simp at h
    · split at h
      · simp at h
      · simp only [Except.ok.injEq, Prod.mk.injEq] at h
        rw [(length_of_split? hs).2, ← h.2]
        simp

/-- Reading an element never gives back more bytes than it was given. -/
theorem Element.read_shortens {produced total : Nat} {tag : UInt8} {bytes rest : Bytes}
    {e : Element} (h : Element.read produced total tag bytes = .ok (e, rest)) :
    rest.length ≤ bytes.length := by
  simp only [Element.read] at h
  split at h
  · split at h
    · exact readLiteral_shortens h
    · split at h
      · simp at h
      · rename_i hs
        have := readLiteral_shortens h
        rw [(length_of_split? hs).2, List.length_append]
        omega
  · exact readCopy_shortens h
  · exact readCopy_shortens h
  · exact readCopy_shortens h

/-- The output of all elements after `out`, of at most `total` bytes. -/
def expand (total : Nat) (bytes : Bytes) (out : Array UInt8) : Except DecodeError (Array UInt8) :=
  match bytes with
  | [] => .ok out
  | tag :: bytes =>
    match _h : Element.read out.size total tag bytes with
    | .error e => .error e
    | .ok (element, rest) => expand total rest (element.replay out)
termination_by bytes.length
decreasing_by
  have := Element.read_shortens _h
  simp
  omega

/-- The data of a stream. -/
def decode (stream : Bytes) : Except DecodeError Bytes :=
  match readHeader stream with
  | .error e => .error e
  | .ok (total, bytes) =>
    match expand total bytes #[] with
    | .error e => .error e
    | .ok out => if out.size = total then .ok out.toList else .error (.incomplete total out.size)

end BlockDir.Snappy
