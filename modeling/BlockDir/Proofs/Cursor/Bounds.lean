import BlockDir.Cursor.Datum
import BlockDir.Proofs.Backend.Safety
import BlockDir.Proofs.Cursor.Views

/-!
# Cursors and outputs stay within bounds

A cursor on a loaded file reaches only bytes that are there, and so does every cursor that is made from
it (`Reader.InBounds`). Whatever is read of it, as bytes or as values, fails only with foreseen errors
(`Shape.safe_read`), and the loop that gathers bytes from blocks advances in every round. So does the
loop that fills the blocks of an output (`Output.pourAll_eq_fill`).
-/

namespace BlockDir

/-- An error of a stream that does not report a misuse. -/
def IoError.Foreseen (e : IoError) : Prop := ∀ what, e ≠ (Error.misuse what).toIo

namespace Error

theorem message_toList (e : Error) :
    e.message.toList = e.kind.heading.toList ++ (": ".toList ++ e.detail.toList) := by
  simp only [message, toString, String.toList_append, List.append_assoc]

/-- The message of a misuse cannot be taken for that of another kind of error. -/
theorem Foreseen.message_ne {e : Error} (h : e.Foreseen) (what : Misuse) :
    e.message ≠ (misuse what).message := by
  intro heq
  have hhead : e.kind.heading.toList.head? = some 'M' := by
    have hhead := congrArg (·.toList.head?) heq
    have hsome : e.kind.heading.toList ≠ [] := by cases e.kind <;> decide
    have hmisuse : (misuse what).kind.heading.toList = "Misuse".toList := rfl
    simp only [message_toList, List.head?_append_of_ne_nil _ hsome, hmisuse] at hhead
    exact hhead
  refine h ?_
  generalize e.kind = kind at hhead
  cases kind <;> first | rfl | exact absurd hhead (by decide)

theorem Foreseen.toIo {e : Error} (h : e.Foreseen) (hio : e.kind ≠ .io) : e.toIo.Foreseen := by
  intro what heq
  have htext : e.toIo.text = e.message := by
    cases e with
    | io error => exact absurd rfl hio
    | _ => rfl
  exact h.message_ne what (htext ▸ congrArg IoError.text heq)

end Error

/-- A call to a cursor that came to something, or to a foreseen error. -/
def CursorAnswer.Foreseen : CursorAnswer → Prop
  | .failed e => e.Foreseen
  | .failedStream e => e.Foreseen
  | _ => True

/-! ## Cursors -/

theorem LoadedFile.block_eq_ok_iff {file : LoadedFile} {index : Nat} {block : Bytes} :
    file.block index = .ok block ↔ file.blocks[index]? = some block := by
  unfold LoadedFile.block
  cases file.blocks[index]? <;> simp

/-- A cursor that reaches only bytes that are there: its position is not past its end, positions of the
file are words of 64 bits, and for every position of the view there is a block with a byte at it. -/
structure Reader.InBounds (r : Reader) : Prop where
  ahead : r.position ≤ r.length
  word : r.base + r.length < 2 ^ 64
  divisor : ∀ file, r.file = some file → 0 < file.blockSize
  bytes : ∀ file, r.file = some file → ∀ position < r.length, ∃ block,
    file.blocks[(r.base + position) / file.blockSize]? = some block ∧
      (r.base + position) % file.blockSize < block.length

namespace Reader

variable {r : Reader}

theorem openFile_cases (r : Reader) :
    (∃ file, r.file = some file ∧ r.openFile = .ok file) ∨
      r.openFile = .error (.closed (.cursor r.description)) := by
  unfold openFile
  cases r.file with
  | none => exact .inr rfl
  | some file => exact .inl ⟨file, rfl, rfl⟩

/-- A cursor at the start of a loaded file. -/
theorem inBounds_of_load {v : Volume} {name : String} {length : Nat} {client after : Client}
    {file : LoadedFile} (h : v.load name length client = .ok file after) (hlength : length < 2 ^ 64)
    (description : String) : (Reader.new description file).InBounds := by
  obtain ⟨hsize, -, hcontent, hfile⟩ := Volume.load_ofContent h
  generalize file.blocks.toList.flatten = content at hcontent hfile
  subst hfile
  refine ⟨Nat.zero_le _, ?_, ?_, ?_⟩
  · show 0 + content.length < 2 ^ 64
    omega
  · rintro _ ⟨⟩
    exact hsize
  · rintro _ ⟨⟩ position hposition
    have hbyte := LoadedFile.getElem?_block_ofContent hsize content position
    have hblock := LoadedFile.block_ofContent hsize content position hposition
    show ∃ block, (LoadedFile.ofContent v.blockSize content).blocks[(0 + position) / v.blockSize]? =
      some block ∧ (0 + position) % v.blockSize < block.length
    rw [Nat.zero_add]
    refine ⟨_, LoadedFile.block_eq_ok_iff.1 hblock, ?_⟩
    rw [List.getElem?_eq_getElem hposition] at hbyte
    exact (List.getElem?_eq_some_iff.1 hbyte).1

namespace InBounds

theorem moved (h : r.InBounds) {position : Nat} (hposition : position ≤ r.length) :
    ({ r with position } : Reader).InBounds :=
  ⟨hposition, h.word, h.divisor, h.bytes⟩

theorem close (h : r.InBounds) : r.close.InBounds :=
  ⟨h.ahead, h.word, nofun, nofun⟩

/-- A slice reaches only what its parent reaches. -/
theorem slice (h : r.InBounds) {name : String} {offset length : Nat} {made : Reader}
    (hmade : r.slice name offset length = .ok made) : made.InBounds := by
  unfold Reader.slice at hmade
  obtain ⟨file, hfile, hopen⟩ | hclosed := r.openFile_cases
  · rw [hopen] at hmade
    dsimp only at hmade
    split at hmade
    · rename_i hinside
      obtain rfl := Except.ok.inj hmade
      have hword := h.word
      refine ⟨Nat.zero_le _, ?_, ?_, ?_⟩
      · show r.base + offset + length < 2 ^ 64
        omega
      · rintro _ ⟨⟩
        exact h.divisor file hfile
      · rintro _ ⟨⟩ position hposition
        have hposition' : position < length := hposition
        show ∃ block, file.blocks[(r.base + offset + position) / file.blockSize]? = some block ∧
          (r.base + offset + position) % file.blockSize < block.length
        rw [Nat.add_assoc]
        exact h.bytes file hfile (offset + position) (by omega)
    · cases hmade
  · rw [hclosed] at hmade
    cases hmade

/-- Bytes of the view are gathered without a stop, and every round takes some. -/
theorem gather (h : r.InBounds) {file : LoadedFile} (hfile : r.file = some file)
    (found : List Bytes) (position count : Nat) (hinside : position + count ≤ r.length) :
    ∃ pieces, file.gather found (r.base + position) count = .ok (pieces ++ found) ∧
      ∀ piece ∈ pieces, piece ≠ [] := by
  induction count using Nat.strong_induction_on generalizing found position with
  | h count ih =>
    rw [LoadedFile.gather]
    by_cases hzero : count = 0
    · rw [dif_pos hzero]
      exact ⟨[], rfl, fun _ hmem => absurd hmem List.not_mem_nil⟩
    · obtain ⟨block, hblock, hoffset⟩ := h.bytes file hfile position (by omega)
      rw [dif_neg hzero]
      simp only [LoadedFile.block_eq_ok_iff.2 hblock]
      -- the block goes on past the offset, so the piece is not empty
      have hlength : ((block.drop ((r.base + position) % file.blockSize)).take count).length =
          min count (block.length - (r.base + position) % file.blockSize) := by
        rw [List.length_take, List.length_drop]
      generalize (block.drop ((r.base + position) % file.blockSize)).take count = piece at hlength
      have hpiece : piece ≠ [] := List.length_pos_iff.1 (by omega)
      rw [dif_neg hpiece, Nat.add_assoc]
      have hpos := List.length_pos_iff.2 hpiece
      obtain ⟨pieces, hok, hsome⟩ := ih (count - piece.length) (by omega) (piece :: found)
        (position + piece.length) (by omega)
      refine ⟨pieces ++ [piece], by simpa using hok, fun other hmem => ?_⟩
      rcases List.mem_append.1 hmem with hmem | hmem
      · exact hsome other hmem
      · rw [List.mem_singleton.1 hmem]
        exact hpiece

end InBounds

/-- A cursor moves to a place in its view, or it stays where it is for a foreseen reason that does not
come from a file system. -/
inductive Moves {α : Type} (r : Reader) : EStateM.Result Error Reader α → Prop where
  | moved (a : α) {position : Nat} (inside : position ≤ r.length) :
    Moves r (.ok a { r with position })
  | stayed {e : Error} (foreseen : e.Foreseen) (kind : e.kind ≠ .io) : Moves r (.error e r)

theorem Moves.closed {α : Type} :
    Moves (α := α) r (.error (.closed (.cursor r.description)) r) :=
  .stayed nofun nofun

theorem readByte_moves (h : r.InBounds) : Moves r (readByte r) := by
  unfold readByte
  split
  · exact .stayed nofun nofun
  · rename_i hinside
    obtain ⟨file, hfile, hopen⟩ | hclosed := r.openFile_cases
    · obtain ⟨block, hblock, hoffset⟩ := h.bytes file hfile r.position (by omega)
      have hnext : r.position + 1 ≤ r.length := by omega
      simp only [hopen, LoadedFile.block_eq_ok_iff.2 hblock, List.getElem?_eq_getElem hoffset]
      exact .moved _ hnext
    · rw [hclosed]
      exact .closed

theorem readBytes_moves (h : r.InBounds) (count : Nat) : Moves r (readBytes count r) := by
  have hahead := h.ahead
  unfold readBytes remaining
  split
  · exact .stayed nofun nofun
  · rename_i hfits
    obtain ⟨file, hfile, hopen⟩ | hclosed := r.openFile_cases
    · obtain ⟨pieces, hok, -⟩ := h.gather hfile [] r.position count (by omega)
      have hend : r.position + count ≤ r.length := by omega
      simp only [hopen, LoadedFile.bytesAt, hok, Except.map]
      exact .moved _ hend
    · rw [hclosed]
      exact .closed

theorem seek_moves (target : Nat) : Moves r (seek target r) := by
  unfold seek
  split
  · exact .stayed nofun nofun
  · rename_i hinside
    obtain ⟨file, -, hopen⟩ | hclosed := r.openFile_cases
    · rw [hopen]
      exact .moved _ (Nat.not_lt.1 hinside)
    · rw [hclosed]
      exact .closed

theorem Moves.fares {α : Type} {result : EStateM.Result Error Reader α} (hmoves : Moves r result)
    (h : r.InBounds) : Fares Error.Foreseen InBounds result := by
  cases hmoves with
  | moved a inside => exact h.moved inside
  | stayed foreseen kind => exact ⟨h, foreseen⟩

theorem safe_readByte : Safe Error.Foreseen InBounds readByte := fun _ h => (readByte_moves h).fares h

theorem safe_readBytes (count : Nat) : Safe Error.Foreseen InBounds (readBytes count) :=
  fun _ h => (readBytes_moves h count).fares h

theorem safe_seek (target : Nat) : Safe Error.Foreseen InBounds (seek target) :=
  fun _ h => (seek_moves target).fares h

theorem safe_readFixed (width : Nat) : Safe Error.Foreseen InBounds (readFixed width) :=
  (safe_readBytes width).bind fun bytes => safe_pure (Word.toInt (8 * width) bytes.toNat)

theorem safe_readGroups (limit : Nat) : Safe Error.Foreseen InBounds (readGroups limit) := by
  induction limit with
  | zero => exact safe_pure none
  | succ limit ih =>
    refine safe_readByte.bind fun byte => ?_
    split
    · exact ih.bind fun rest => safe_pure (rest.map (Varint.group byte + 128 * ·))
    · exact safe_pure _

theorem safe_readVarint (limit bits : Nat) : Safe Error.Foreseen InBounds (readVarint limit bits) := by
  refine (safe_readGroups limit).bind fun groups => ?_
  cases groups with
  | none => exact safe_throw nofun
  | some n => exact safe_pure _

theorem safe_readText : Safe Error.Foreseen InBounds readText := by
  refine (safe_readVarint 5 32).bind fun length => ?_
  split
  · exact safe_throw nofun
  · refine (safe_readBytes length.toNat).bind fun bytes => safe_give ?_
    cases Utf8.decode bytes with
    | ok text => exact sane_ok text
    | error e => exact sane_error nofun

/-- Whatever bytes a value is read from, the read fails only with foreseen errors. -/
theorem safe_read (shape : Shape) : Safe Error.Foreseen InBounds shape.read := by
  cases shape with
  | byte => exact safe_readByte.map _
  | bytes count => exact (safe_readBytes count).map _
  | int16 => exact (safe_readFixed 2).map _
  | int32 => exact (safe_readFixed 4).map _
  | int64 => exact (safe_readFixed 8).map _
  | varint32 => exact (safe_readVarint 5 32).map _
  | varint64 => exact (safe_readVarint 10 64).map _
  | text => exact safe_readText.map _

/-! ## Cursors as streams -/

/-- What a stream comes to if it stays within bounds and fails only with foreseen errors. -/
def Streams {α : Type} : EStateM.Result IoError Reader α → Prop
  | .ok _ r => r.InBounds
  | .error e r => r.InBounds ∧ e.Foreseen

theorem Moves.streams {α : Type} {act : ReaderM α} (hmoves : Moves r (act r)) (h : r.InBounds) :
    Streams (asStream act r) := by
  unfold asStream
  generalize act r = result at hmoves
  cases hmoves with
  | moved a inside => exact h.moved inside
  | stayed foreseen kind => exact ⟨h, foreseen.toIo kind⟩

theorem readSome_streams (h : r.InBounds) (count : Nat) : Streams (readSome count r) :=
  (readBytes_moves h (min count r.remaining)).streams h

theorem seekFrom_streams (h : r.InBounds) (origin : Origin) (distance : Int) :
    Streams (seekFrom origin distance r) := by
  unfold seekFrom
  cases r.target? origin distance with
  | none => exact ⟨h, fun what heq => nomatch congrArg IoError.kind heq⟩
  | some target =>
    have hseek := (seek_moves (r := r) target).streams h
    dsimp only
    cases hresult : asStream (seek target) r with
    | ok done after | error e after =>
      rw [hresult] at hseek
      exact hseek

/-! ## Families of cursors -/

variable {readers : List Reader}

/-- Cursors that are within bounds after a call that came to something, or to a foreseen error. -/
def AllInBounds (result : CursorAnswer × List Reader) : Prop :=
  result.1.Foreseen ∧ ∀ r ∈ result.2, r.InBounds

theorem set_inBounds (h : ∀ r ∈ readers, r.InBounds) (number : Nat) {new : Reader}
    (hnew : new.InBounds) : ∀ r ∈ readers.set number new, r.InBounds := by
  intro other hmem
  rcases List.mem_or_eq_of_mem_set hmem with hmem | rfl
  · exact h other hmem
  · exact hnew

theorem append_inBounds (h : ∀ r ∈ readers, r.InBounds) {new : Reader} (hnew : new.InBounds) :
    ∀ r ∈ readers ++ [new], r.InBounds := by
  intro other hmem
  rcases List.mem_append.1 hmem with hmem | hmem
  · exact h other hmem
  · rw [List.mem_singleton.1 hmem]
    exact hnew

theorem putBack_inBounds {α : Type} (h : ∀ r ∈ readers, r.InBounds) (number : Nat)
    (answer : α → CursorAnswer) (hanswer : ∀ a, (answer a).Foreseen)
    {result : EStateM.Result Error Reader α} (hresult : Fares Error.Foreseen InBounds result) :
    AllInBounds (CursorOps.putBack readers number answer .failed result) := by
  cases result with
  | ok a after => exact ⟨hanswer a, set_inBounds h number hresult⟩
  | error e after => exact ⟨hresult.2, set_inBounds h number hresult.1⟩

theorem putBack_stream_inBounds {α : Type} (h : ∀ r ∈ readers, r.InBounds) (number : Nat)
    (answer : α → CursorAnswer) (hanswer : ∀ a, (answer a).Foreseen)
    {result : EStateM.Result IoError Reader α} (hresult : Streams result) :
    AllInBounds (CursorOps.putBack readers number answer .failedStream result) := by
  cases result with
  | ok a after => exact ⟨hanswer a, set_inBounds h number hresult⟩
  | error e after => exact ⟨hresult.2, set_inBounds h number hresult.1⟩

theorem sane_slice (r : Reader) (name : String) (offset length : Nat) :
    Sane Error.Foreseen (r.slice name offset length) := by
  unfold slice
  obtain ⟨file, -, hopen⟩ | hclosed := r.openFile_cases
  · rw [hopen]
    dsimp only
    split
    · exact sane_ok _
    · exact sane_error nofun
  · rw [hclosed]
    exact sane_error nofun

/-- Whatever is called for, cursors stay within bounds, and so do those that are made from them. -/
theorem step_inBounds (h : ∀ r ∈ readers, r.InBounds) (number : Nat) (call : CursorCall) :
    AllInBounds (ops.step readers number call) := by
  rw [CursorOps.step]
  cases hcursor : readers[number]? with
  | none => exact ⟨trivial, h⟩
  | some r =>
    have hr := h r (List.mem_of_getElem? hcursor)
    cases call with
    | readByte => exact putBack_inBounds h number .byte (fun _ => trivial) (safe_readByte r hr)
    | readBytes count =>
      exact putBack_inBounds h number .bytes (fun _ => trivial) (safe_readBytes count r hr)
    | seek target =>
      exact putBack_inBounds h number (fun _ => .done) (fun _ => trivial) (safe_seek target r hr)
    | readSome count =>
      exact putBack_stream_inBounds h number .bytes (fun _ => trivial) (readSome_streams hr count)
    | seekFrom origin distance =>
      exact putBack_stream_inBounds h number .moved (fun _ => trivial)
        (seekFrom_streams hr origin distance)
    | slice name offset length =>
      have hsane := r.sane_slice name offset length
      dsimp only [ops]
      cases hslice : r.slice name offset length with
      | ok made => exact ⟨trivial, append_inBounds h (hr.slice hslice)⟩
      | error e => exact ⟨hsane e hslice, h⟩
    | clone => exact ⟨trivial, append_inBounds h hr⟩

end Reader

/-! ## Outputs -/

namespace Output

/-- One round of filling: the last block, or a new one if that is full, takes what it has room for. What
is left comes with the blocks. -/
def pour (n : Nat) (blocks : Array Bytes) (data : Bytes) : Array Bytes × Bytes :=
  let grown := if (blocks.back?.map List.length).getD n = n then blocks.push [] else blocks
  let last := grown.back?.getD []
  let room := n - last.length
  (grown.pop.push (last ++ data.take room), data.drop room)

/-- Rounds of filling until nothing is left. There is no result if a round takes nothing. -/
def pourAll (n : Nat) (blocks : Array Bytes) (data : Bytes) : Option (Array Bytes) :=
  if data = [] then some blocks
  else
    let (blocks, rest) := pour n blocks data
    if _h : rest.length < data.length then pourAll n blocks rest else none
termination_by data.length

variable {n : Nat} {blocks : Array Bytes} {data : Bytes}

/-- A round works on some last block with room for more. -/
theorem pour_cases (hn : 0 < n) (hback : ∀ last, blocks.back? = some last → last.length ≤ n)
    (data : Bytes) :
    ∃ front last, last.length < n ∧ pour n blocks data =
        (front.push (last ++ data.take (n - last.length)), data.drop (n - last.length)) ∧
      (blocks = front.push last ∨
        blocks = front ∧ last = [] ∧ ∀ block, blocks.back? = some block → block.length = n) := by
  unfold pour
  cases hlast : blocks.back? with
  | none => exact ⟨blocks, [], hn, by simp, .inr ⟨rfl, rfl, nofun⟩⟩
  | some last =>
    have hle := hback last hlast
    obtain ⟨front, rfl⟩ := Array.back?_eq_some_iff.1 hlast
    by_cases hfull : last.length = n
    · refine ⟨front.push last, [], hn, by simp [hfull], .inr ⟨rfl, rfl, ?_⟩⟩
      rintro _ ⟨⟩
      exact hfull
    · exact ⟨front, last, by omega, by simp [hfull], .inl rfl⟩

/-- What comes after a block that is full, or is nothing, is cut anew. -/
theorem fill_eq_append {rest : Bytes}
    (h : ∀ last, blocks.back? = some last → last.length = n ∨ rest = []) :
    fill n blocks rest = blocks ++ chunks n rest := by
  unfold fill
  cases hlast : blocks.back? with
  | none =>
    rw [Array.back?_eq_none_iff.1 hlast]
    simp
  | some last =>
    obtain ⟨front, rfl⟩ := Array.back?_eq_some_iff.1 hlast
    dsimp only
    rcases h last hlast with hfull | rfl
    · rw [if_pos (by omega)]
    · split <;> simp

/-- A round takes at least one byte, leaves no block too long, and does not change what filling comes
to. -/
theorem pour_spec (hn : 0 < n) (hback : ∀ last, blocks.back? = some last → last.length ≤ n)
    (hdata : data ≠ []) :
    (pour n blocks data).2.length < data.length ∧
      (∀ last, (pour n blocks data).1.back? = some last → last.length ≤ n) ∧
      fill n (pour n blocks data).1 (pour n blocks data).2 = fill n blocks data := by
  obtain ⟨front, last, hroom, hpour, hplace⟩ := pour_cases hn hback data
  have hpos := List.length_pos_iff.2 hdata
  have hlength : (last ++ data.take (n - last.length)).length =
      last.length + min (n - last.length) data.length := by
    rw [List.length_append, List.length_take]
  have hrest : (data.drop (n - last.length)).length = data.length - (n - last.length) :=
    List.length_drop
  rw [hpour]
  generalize htaken : last ++ data.take (n - last.length) = taken at hlength
  refine ⟨by dsimp only; omega, fun block hblock => ?_, ?_⟩
  · rw [Array.back?_push] at hblock
    obtain rfl := Option.some.inj hblock
    omega
  · have hafter : ∀ block, (front.push taken).back? = some block →
        block.length = n ∨ data.drop (n - last.length) = [] := by
      intro block hblock
      rw [Array.back?_push] at hblock
      obtain rfl := Option.some.inj hblock
      rw [← List.length_eq_zero_iff]
      omega
    rw [fill_eq_append hafter, ← htaken]
    rcases hplace with rfl | ⟨rfl, rfl, hfull⟩
    · rw [fill, Array.back?_push]
      dsimp only
      rw [if_neg (by omega), Array.pop_push]
    · rw [fill_eq_append fun block hblock => .inl (hfull block hblock),
        chunks_eq_take_cons hn hdata]
      simp

/-- The rounds come to an end, and to what the output holds then. -/
theorem pourAll_eq_fill (hn : 0 < n) (hback : ∀ last, blocks.back? = some last → last.length ≤ n)
    (data : Bytes) : pourAll n blocks data = some (fill n blocks data) := by
  fun_induction pourAll n blocks data with
  | case1 blocks =>
    rw [fill_eq_append fun _ _ => .inr rfl]
    simp
  | case2 blocks data hdata grown rest hpour hless ih =>
    obtain ⟨-, hback', hfill⟩ := pour_spec hn hback hdata
    rw [hpour] at hback' hfill
    rw [ih hback', hfill]
  | case3 blocks data hdata grown rest hpour hless =>
    obtain ⟨hless', -, -⟩ := pour_spec hn hback hdata
    rw [hpour] at hless'
    exact absurd hless' hless

/-- An output that holds the blocks of what was written, with memory for as many. -/
structure Tidy (o : Output) : Prop where
  divisor : 0 < o.blockSize
  collected : ∃ content, o.Collected content
  memory : o.allocated = o.blockSize * o.blocks.size

/-- An output in which nothing overflows: the last block is not too long, every block starts before the
end of the file, and the memory exceeds what was written by less than a block. -/
structure InBounds (o : Output) : Prop where
  divisor : 0 < o.blockSize
  last : ∀ block, o.blocks.back? = some block → block.length ≤ o.blockSize
  places : ∀ index < o.blocks.size, index * o.blockSize < o.position
  memory : o.allocated < o.position + o.blockSize

theorem tidy_new (name : String) {blockSize : Nat} (hsize : 0 < blockSize) (checksum : Bool) :
    (Output.new name blockSize checksum).Tidy :=
  ⟨hsize, ⟨[], collected_new name blockSize checksum⟩, rfl⟩

variable {o : Output}

/-- An output has as many blocks as its length calls for. -/
theorem Collected.size_eq {content : Bytes} (h : o.Collected content) (hsize : 0 < o.blockSize) :
    o.blocks.size = Layout.blockCount o.position o.blockSize := by
  rw [h.position, ← length_chunks hsize, ← h.blocks, Array.length_toList]

theorem Tidy.write (h : o.Tidy) (data : Bytes) : (o.write data).Tidy := by
  obtain ⟨content, hcollected⟩ := h.collected
  have hafter := hcollected.write h.divisor data
  have hsize := hcollected.size_eq h.divisor
  have hsize' : (o.write data).blocks.size =
      Layout.blockCount (o.position + data.length) o.blockSize := hafter.size_eq h.divisor
  have hgrown : o.blocks.size ≤ (o.write data).blocks.size := by
    rw [hsize, hsize']
    exact Layout.blockCount_mono (Nat.le_add_right _ _) _
  refine ⟨h.divisor, ⟨_, hafter⟩, ?_⟩
  show o.allocated + o.blockSize * ((o.write data).blocks.size - o.blocks.size) =
    o.blockSize * (o.write data).blocks.size
  rw [h.memory, ← Nat.mul_add, Nat.add_sub_cancel' hgrown]

theorem Tidy.inBounds (h : o.Tidy) : o.InBounds := by
  obtain ⟨content, hcollected⟩ := h.collected
  have hdivisor := h.divisor
  have hsize := hcollected.size_eq hdivisor
  refine ⟨hdivisor, fun block hblock => ?_, fun index hindex => ?_, ?_⟩
  · have hmem : block ∈ o.blocks.toList := Array.mem_toList_iff.2 (Array.mem_of_back? hblock)
    rw [hcollected.blocks] at hmem
    have hle := (mem_chunks hmem).2
    omega
  · rw [hsize] at hindex
    exact (Layout.lt_blockCount_iff hdivisor).1 hindex
  · have hle := Nat.div_mul_le_self (o.position + (o.blockSize - 1)) o.blockSize
    rw [h.memory, hsize, Layout.blockCount, Nat.mul_comm]
    omega

end Output

end BlockDir
