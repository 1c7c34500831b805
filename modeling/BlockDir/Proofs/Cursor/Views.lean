import BlockDir.Proofs.Cursor.Contents
import BlockDir.Proofs.Volume.Loading

/-!
# Cursors are views of bytes

A file that was loaded is the blocks of its content (`Volume.load_ofContent`). A read cursor on it,
and every slice and copy that is made from it, behaves as a string of bytes with a position: a family
of cursors answers any calls as a family of such views does (`Reader.answers_as_views`). `CursorOps`
is what both sides have in common, so that the calls are made in one way.
-/

namespace BlockDir

/-- Whatever the client went through, a file that was loaded is the blocks of its content. -/
theorem Volume.load_ofContent {v : Volume} {name : String} {length : Nat} {client after : Client}
    {file : LoadedFile} (h : v.load name length client = .ok file after) :
    0 < v.blockSize ∧ Layout.blockCount length v.blockSize ≤ Layout.maxBlocks ∧
      file.blocks.toList.flatten.length = length ∧
      file = LoadedFile.ofContent v.blockSize file.blocks.toList.flatten := by
  obtain ⟨stored, middle, hstored, h⟩ := run_bind_eq_ok.1 h
  obtain ⟨blocks, last, hgive, h⟩ := run_bind_eq_ok.1 h
  obtain ⟨hdecode, rfl⟩ := give_eq_ok.1 hgive
  obtain ⟨rfl, -⟩ := EStateM.Result.ok.inj h
  obtain ⟨hsize, hcount, hfew⟩ := storedCount_eq_ok_iff.1 (length_of_loadStored hstored)
  obtain ⟨hlength, heach⟩ := decodeBlocks_eq_ok_iff.1 hdecode
  obtain ⟨hflat, hchunks⟩ := eq_chunks_of_lengths hsize (hlength.symm.trans hcount)
    fun index block hblock => by
      obtain ⟨hindex, rfl⟩ := List.getElem?_eq_some_iff.1 hblock
      exact length_of_decodeBlock (heach index (hlength ▸ hindex) hindex)
  refine ⟨hsize, hcount ▸ hfew, hflat, ?_⟩
  rw [LoadedFile.ofContent, hchunks, hflat]

/-- A byte of a block is the byte of the content at its place. -/
theorem LoadedFile.getElem?_block_ofContent {n : Nat} (hn : 0 < n) (content : Bytes)
    (position : Nat) :
    ((content.drop (position / n * n)).take n)[position % n]? = content[position]? := by
  rw [List.getElem?_take_of_lt (Nat.mod_lt position hn), List.getElem?_drop,
    Nat.div_add_mod' position n]

/-! ## Views -/

/-- A string of bytes with a position. -/
structure View where
  description : String
  content : Bytes
  position : Nat

namespace View

/-- Takes the byte at the position. -/
def readByte : EStateM Error View UInt8 := fun w =>
  match w.content[w.position]? with
  | some byte => .ok byte { w with position := w.position + 1 }
  | none => .error (.shortView (.byte w.description w.content.length)) w

/-- Takes exactly `count` bytes. -/
def readBytes (count : Nat) : EStateM Error View Bytes := fun w =>
  if w.position + count ≤ w.content.length then
    .ok ((w.content.drop w.position).take count) { w with position := w.position + count }
  else .error (.shortView (.bytes count w.position w.description w.content.length)) w

/-- Goes to a position, the end included. -/
def seek (target : Nat) : EStateM Error View Unit := fun w =>
  if target ≤ w.content.length then .ok () { w with position := target }
  else .error (.outOfView (.seek target w.description w.content.length)) w

/-- Takes as many of `count` bytes as there are. -/
def readSome (count : Nat) : EStateM IoError View Bytes := fun w =>
  let bytes := (w.content.drop w.position).take count
  .ok bytes { w with position := w.position + bytes.length }

/-- The place that positions are counted from. -/
def origin (w : View) : Reader.Origin → Int
  | .start => 0
  | .end => w.content.length
  | .current => w.position

/-- Goes to a position that lies `distance` from an origin, the end included. A position that is no
number of 64 bits is refused for that. -/
def seekFrom (origin : Reader.Origin) (distance : Int) : EStateM IoError View Nat := fun w =>
  let target := w.origin origin + distance
  if 0 ≤ target ∧ target ≤ w.content.length then
    .ok target.toNat { w with position := target.toNat }
  else if 0 ≤ target ∧ target < 2 ^ 64 then
    .error (Error.outOfView (.seek target.toNat w.description w.content.length)).toIo w
  else .error ⟨.invalidInput, "seek to a negative position"⟩ w

/-- The `length` bytes from `offset` on, with a position of their own. -/
def slice (w : View) (name : String) (offset length : Nat) : Except Error View :=
  if offset + length ≤ w.content.length then
    .ok ⟨s!"{w.description} [slice={name}]", (w.content.drop offset).take length, 0⟩
  else .error (.outOfView (.slice name offset length w.content.length w.description))

end View

/-! ## Families of cursors -/

/-- What cursors of some sort can do. -/
structure CursorOps (σ : Type) where
  readByte : EStateM Error σ UInt8
  readBytes (count : Nat) : EStateM Error σ Bytes
  seek (target : Nat) : EStateM Error σ Unit
  readSome (count : Nat) : EStateM IoError σ Bytes
  seekFrom (origin : Reader.Origin) (distance : Int) : EStateM IoError σ Nat
  slice (cursor : σ) (name : String) (offset length : Nat) : Except Error σ

def Reader.ops : CursorOps Reader :=
  ⟨readByte, readBytes, seek, readSome, seekFrom, slice⟩

def View.ops : CursorOps View :=
  ⟨readByte, readBytes, seek, readSome, seekFrom, slice⟩

/-- A call to one of several cursors. -/
inductive CursorCall where
  | readByte
  | readBytes (count : Nat)
  | seek (target : Nat)
  | readSome (count : Nat)
  | seekFrom (origin : Reader.Origin) (distance : Int)
  | slice (name : String) (offset length : Nat)
  | clone

/-- What a call to a cursor is answered. Cursors are numbered in the order in which they were made. -/
inductive CursorAnswer where
  | byte (byte : UInt8)
  | bytes (bytes : Bytes)
  | done
  | moved (position : Nat)
  | made (number : Nat)
  | failed (error : Error)
  | failedStream (error : IoError)
  /-- There is no cursor of that number. -/
  | noCursor

/-- Whether a call came to nothing. -/
def CursorAnswer.IsFailure : CursorAnswer → Prop
  | failed _ | failedStream _ | noCursor => True
  | _ => False

namespace CursorOps

variable {σ : Type} (ops : CursorOps σ)

/-- Puts a cursor back after it was used. -/
def putBack {ε α : Type} (cursors : List σ) (number : Nat) (answer : α → CursorAnswer)
    (failure : ε → CursorAnswer) : EStateM.Result ε σ α → CursorAnswer × List σ
  | .ok a cursor => (answer a, cursors.set number cursor)
  | .error e cursor => (failure e, cursors.set number cursor)

/-- The answer of one cursor to a call, and all cursors after it. -/
def step (cursors : List σ) (number : Nat) (call : CursorCall) : CursorAnswer × List σ :=
  match cursors[number]? with
  | none => (.noCursor, cursors)
  | some cursor =>
    match call with
    | .readByte => putBack cursors number .byte .failed (ops.readByte cursor)
    | .readBytes count => putBack cursors number .bytes .failed (ops.readBytes count cursor)
    | .seek target => putBack cursors number (fun _ => .done) .failed (ops.seek target cursor)
    | .readSome count => putBack cursors number .bytes .failedStream (ops.readSome count cursor)
    | .seekFrom origin distance =>
      putBack cursors number .moved .failedStream (ops.seekFrom origin distance cursor)
    | .slice name offset length =>
      match ops.slice cursor name offset length with
      | .ok made => (.made cursors.length, cursors ++ [made])
      | .error e => (.failed e, cursors)
    | .clone => (.made cursors.length, cursors ++ [cursor])

/-- The answers to calls that are made in turn, and all cursors after them. -/
def run (cursors : List σ) : List (Nat × CursorCall) → List CursorAnswer × List σ
  | [] => ([], cursors)
  | (number, call) :: rest =>
    let (answer, next) := ops.step cursors number call
    let (answers, last) := run next rest
    (answer :: answers, last)

/-- A call uses one cursor and may make another. All the rest are as they were. -/
theorem step_others (cursors : List σ) {number other : Nat} (call : CursorCall)
    (hother : other < cursors.length) (hne : other ≠ number) :
    (ops.step cursors number call).2[other]? = cursors[other]? := by
  have hset (cursor : σ) : (cursors.set number cursor)[other]? = cursors[other]? :=
    List.getElem?_set_ne hne.symm
  have hput {ε α : Type} (answer : α → CursorAnswer) (failure : ε → CursorAnswer)
      (result : EStateM.Result ε σ α) :
      (putBack cursors number answer failure result).2[other]? = cursors[other]? := by
    cases result with
    | ok a cursor => exact hset cursor
    | error e cursor => exact hset cursor
  rw [step]
  cases cursors[number]? with
  | none => rfl
  | some cursor =>
    cases call with
    | readByte => exact hput ..
    | readBytes count => exact hput ..
    | seek target => exact hput ..
    | readSome count => exact hput ..
    | seekFrom origin distance => exact hput ..
    | slice name offset length =>
      dsimp only
      cases ops.slice cursor name offset length with
      | ok made => exact List.getElem?_append_left hother
      | error e => rfl
    | clone => exact List.getElem?_append_left hother

end CursorOps

variable {n : Nat} {content : Bytes}

namespace Reader

/-- A cursor on the blocks of `content` that stands for a view: of the part of the content that the
cursor covers, at its position. -/
structure Shows (n : Nat) (content : Bytes) (r : Reader) (w : View) : Prop where
  file : r.file = some (LoadedFile.ofContent n content)
  description : w.description = r.description
  bytes : w.content = (content.drop r.base).take r.length
  position : w.position = r.position
  within : r.base + r.length ≤ content.length
  ahead : r.position ≤ r.length

theorem shows_new (description : String) (n : Nat) (content : Bytes) :
    (Reader.new description (LoadedFile.ofContent n content)).Shows n content
      ⟨description, content, 0⟩ where
  file := rfl
  description := rfl
  bytes := by
    show content = (content.drop 0).take content.length
    simp
  position := rfl
  within := Nat.le_of_eq (Nat.zero_add _)
  ahead := Nat.zero_le _

variable {r : Reader} {w : View}

theorem Shows.length (h : r.Shows n content w) : w.content.length = r.length := by
  have hwithin := h.within
  rw [h.bytes, List.length_take, List.length_drop]
  omega

theorem Shows.openFile (h : r.Shows n content w) :
    r.openFile = .ok (LoadedFile.ofContent n content) := by
  rw [Reader.openFile, h.file]

/-- What a cursor covers from its position on is what its view holds from there on. -/
theorem Shows.take_drop (h : r.Shows n content w) {count : Nat}
    (hcount : r.position + count ≤ r.length) :
    (content.drop (r.base + r.position)).take count = (w.content.drop w.position).take count := by
  rw [h.bytes, h.position, List.drop_take, List.drop_drop, List.take_take,
    Nat.min_eq_left (by omega)]

theorem Shows.moved (h : r.Shows n content w) {position : Nat} (hposition : position ≤ r.length) :
    ({ r with position } : Reader).Shows n content { w with position } :=
  ⟨h.file, h.description, h.bytes, rfl, h.within, hposition⟩

/-- Whether two actions come to the same on a cursor and on the view that it stands for. -/
def Follows (n : Nat) (content : Bytes) {ε α : Type} (r : Reader) (w : View) :
    EStateM.Result ε Reader α → EStateM.Result ε View α → Prop
  | .ok a r', .ok b w' => a = b ∧ r'.Shows n content w'
  | .error e r', .error e' w' => e = e' ∧ r' = r ∧ w' = w
  | _, _ => False

theorem readByte_follows (hn : 0 < n) (h : r.Shows n content w) :
    Follows n content r w (readByte r) (View.readByte w) := by
  have hlength := h.length
  have hwithin := h.within
  rw [readByte, View.readByte]
  by_cases hend : r.length ≤ r.position
  · have hnone : w.content[w.position]? = none := by
      rw [List.getElem?_eq_none_iff, h.position]
      omega
    rw [if_pos hend, hnone]
    refine ⟨?_, rfl, rfl⟩
    rw [hlength, h.description]
  · have hbyte : w.content[w.position]? = content[r.base + r.position]? := by
      rw [h.bytes, h.position, List.getElem?_take_of_lt (by omega), List.getElem?_drop]
    have hlt : r.base + r.position < content.length := by omega
    have hsize : (LoadedFile.ofContent n content).blockSize = n := rfl
    rw [if_neg hend, h.openFile, hbyte, List.getElem?_eq_getElem hlt]
    simp only [hsize, LoadedFile.block_ofContent hn content _ hlt,
      LoadedFile.getElem?_block_ofContent hn, List.getElem?_eq_getElem hlt]
    rw [h.position]
    exact ⟨rfl, h.moved (by omega)⟩

theorem readBytes_follows (hn : 0 < n) (h : r.Shows n content w) (count : Nat) :
    Follows n content r w (readBytes count r) (View.readBytes count w) := by
  have hlength := h.length
  have hwithin := h.within
  have hahead := h.ahead
  rw [readBytes, View.readBytes, remaining, h.position, hlength]
  by_cases hshort : r.length - r.position < count
  · rw [if_pos hshort, if_neg (by omega)]
    exact ⟨by rw [h.description], rfl, rfl⟩
  · rw [if_neg hshort, if_pos (by omega), h.openFile]
    have hbytes := LoadedFile.bytesAt_ofContent hn content (r.base + r.position) count (by omega)
    simp only [hbytes]
    refine ⟨?_, h.moved (by omega)⟩
    rw [h.take_drop (by omega), h.position]

theorem seek_follows (h : r.Shows n content w) (target : Nat) :
    Follows n content r w (seek target r) (View.seek target w) := by
  rw [seek, View.seek, h.length]
  by_cases hbeyond : r.length < target
  · rw [if_pos hbeyond, if_neg (by omega)]
    exact ⟨by rw [h.description], rfl, rfl⟩
  · rw [if_neg hbeyond, if_pos (by omega), h.openFile]
    exact ⟨rfl, h.moved (by omega)⟩

theorem readSome_follows (hn : 0 < n) (h : r.Shows n content w) (count : Nat) :
    Follows n content r w (readSome count r) (View.readSome count w) := by
  have hlength := h.length
  have hposition := h.position
  have hahead := h.ahead
  -- a stream asks for no more than there is, so the read cannot fall short
  have hread := readBytes_follows hn h (min count r.remaining)
  have hfits : w.position + min count r.remaining ≤ w.content.length := by
    rw [remaining]
    omega
  have htaken : (w.content.drop w.position).take (min count r.remaining) =
      (w.content.drop w.position).take count := by
    rw [List.take_eq_take_iff, List.length_drop, remaining]
    omega
  have hcount : ((w.content.drop w.position).take count).length = min count r.remaining := by
    rw [List.length_take, List.length_drop, remaining]
    omega
  rw [View.readBytes, if_pos hfits] at hread
  rw [readSome, asStream, View.readSome]
  cases hresult : readBytes (min count r.remaining) r with
  | error e after =>
    rw [hresult] at hread
    exact hread.elim
  | ok bytes after =>
    rw [hresult, htaken] at hread
    dsimp only
    rw [hcount]
    exact hread

theorem Shows.target?_eq (h : r.Shows n content w) (origin : Origin) (distance : Int) :
    r.target? origin distance =
      if 0 ≤ w.origin origin + distance ∧ w.origin origin + distance < 2 ^ 64 then
        some (w.origin origin + distance).toNat
      else none := by
  have hword : ∀ target : Int, (0 ≤ target && target.toNat ≤ Decimal.max64) = true ↔
      0 ≤ target ∧ target < 2 ^ 64 := by
    intro target
    rw [Bool.and_eq_true, decide_eq_true_eq, decide_eq_true_eq, Decimal.max64]
    omega
  cases origin with
  | start => simp only [target?, View.origin, Int.zero_add, hword]
  | «end» => simp only [target?, View.origin, h.length, hword]
  | current => simp only [target?, View.origin, h.position, hword]

theorem seekFrom_follows (h : r.Shows n content w) (hlength : content.length < 2 ^ 64)
    (origin : Origin) (distance : Int) :
    Follows n content r w (seekFrom origin distance r) (View.seekFrom origin distance w) := by
  have hwithin := h.within
  have hbound := h.length
  rw [seekFrom, View.seekFrom, h.target?_eq]
  generalize htarget : w.origin origin + distance = target
  by_cases hword : 0 ≤ target ∧ target < 2 ^ 64
  · rw [if_pos hword]
    have hseek := seek_follows h target.toNat
    dsimp only
    rw [asStream]
    rw [View.seek] at hseek
    by_cases hinside : target ≤ w.content.length
    · rw [if_pos ⟨hword.1, hinside⟩]
      rw [if_pos (by omega)] at hseek
      cases hresult : seek target.toNat r with
      | error e after =>
        rw [hresult] at hseek
        exact hseek.elim
      | ok _ after =>
        rw [hresult] at hseek
        exact ⟨rfl, hseek.2⟩
    · rw [if_neg (fun hin => hinside hin.2), if_pos hword]
      rw [if_neg (by omega)] at hseek
      cases hresult : seek target.toNat r with
      | ok _ after =>
        rw [hresult] at hseek
        exact hseek.elim
      | error e after =>
        rw [hresult] at hseek
        obtain ⟨rfl, rfl, -⟩ := hseek
        exact ⟨rfl, rfl, rfl⟩
  · rw [if_neg hword, if_neg (fun hin => hword ⟨hin.1, by omega⟩), if_neg hword]
    exact ⟨rfl, rfl, rfl⟩

/-- A slice stands for the part of its parent's view. -/
theorem slice_follows (h : r.Shows n content w) (name : String) (offset length : Nat) :
    (∃ made made', r.slice name offset length = .ok made ∧ w.slice name offset length = .ok made' ∧
        made.Shows n content made') ∨
      ∃ e, r.slice name offset length = .error e ∧ w.slice name offset length = .error e := by
  have hwithin := h.within
  rw [Reader.slice, View.slice, h.openFile, h.length, h.description]
  by_cases hinside : offset + length ≤ r.length
  · left
    dsimp only
    rw [if_pos hinside, if_pos hinside]
    refine ⟨_, _, rfl, rfl, rfl, rfl, ?_, rfl, ?_, Nat.zero_le _⟩
    · rw [h.bytes, List.drop_take, List.drop_drop, List.take_take, Nat.min_eq_left (by omega)]
    · show r.base + offset + length ≤ content.length
      omega
  · right
    dsimp only
    rw [if_neg hinside, if_neg hinside]
    exact ⟨_, rfl, rfl⟩

variable {readers : List Reader} {views : List View}

/-- Cursors answer a call as the views do that they stand for, and still stand for them after it. If
the call came to nothing, they are as they were. -/
def Agrees (n : Nat) (content : Bytes) (readers : List Reader) (result : CursorAnswer × List Reader)
    (result' : CursorAnswer × List View) : Prop :=
  result.1 = result'.1 ∧ List.Forall₂ (Shows n content) result.2 result'.2 ∧
    (result.1.IsFailure → result.2 = readers)

theorem Follows.putBack {ε α : Type} (hall : List.Forall₂ (Shows n content) readers views)
    {number : Nat} (hreader : readers[number]? = some r) {answer : α → CursorAnswer}
    (hanswer : ∀ a, ¬ (answer a).IsFailure) (failure : ε → CursorAnswer)
    (hview : views[number]? = some w) {result : EStateM.Result ε Reader α}
    {result' : EStateM.Result ε View α} (h : Follows n content r w result result') :
    Agrees n content readers (CursorOps.putBack readers number answer failure result)
      (CursorOps.putBack views number answer failure result') := by
  cases result with
  | ok a after =>
    cases result' with
    | error e after' => exact h.elim
    | ok b after' =>
      obtain ⟨rfl, hshows⟩ := h
      exact ⟨rfl, forall₂_set hall number hshows, fun hfailure => absurd hfailure (hanswer a)⟩
  | error e after =>
    cases result' with
    | ok b after' => exact h.elim
    | error e' after' =>
      obtain ⟨rfl, rfl, rfl⟩ := h
      obtain ⟨hlt, rfl⟩ := List.getElem?_eq_some_iff.1 hreader
      obtain ⟨hlt', rfl⟩ := List.getElem?_eq_some_iff.1 hview
      have hsame : readers.set number readers[number] = readers := List.set_getElem_self hlt
      have hsame' : views.set number views[number] = views := List.set_getElem_self hlt'
      show Agrees n content readers (failure e, readers.set number readers[number])
        (failure e, views.set number views[number])
      rw [hsame, hsame']
      exact ⟨rfl, hall, fun _ => rfl⟩

theorem step_agrees (hn : 0 < n) (hlength : content.length < 2 ^ 64)
    (hall : List.Forall₂ (Shows n content) readers views) (number : Nat) (call : CursorCall) :
    Agrees n content readers (ops.step readers number call) (View.ops.step views number call) := by
  rw [CursorOps.step, CursorOps.step]
  rcases Nat.lt_or_ge number readers.length with hlt | hge
  · have hlt' : number < views.length := hall.length_eq ▸ hlt
    have hshows := hall.get hlt hlt'
    simp only [List.get_eq_getElem] at hshows
    have hreader := List.getElem?_eq_getElem hlt
    have hview := List.getElem?_eq_getElem hlt'
    rw [hreader, hview]
    generalize readers[number] = r at hshows hreader
    generalize views[number] = w at hshows hview
    have hput : ∀ {ε α : Type} {answer : α → CursorAnswer}, (∀ a, ¬ (answer a).IsFailure) →
        ∀ (failure : ε → CursorAnswer) {result result'}, Follows n content r w result result' →
        Agrees n content readers (CursorOps.putBack readers number answer failure result)
          (CursorOps.putBack views number answer failure result') :=
      fun hanswer failure => Follows.putBack hall hreader hanswer failure hview
    cases call with
    | readByte => exact hput (fun _ => id) .failed (readByte_follows hn hshows)
    | readBytes count => exact hput (fun _ => id) .failed (readBytes_follows hn hshows count)
    | seek target => exact hput (fun _ => id) .failed (seek_follows hshows target)
    | readSome count => exact hput (fun _ => id) .failedStream (readSome_follows hn hshows count)
    | seekFrom origin distance =>
      exact hput (fun _ => id) .failedStream (seekFrom_follows hshows hlength origin distance)
    | slice name offset length =>
      dsimp only [ops, View.ops]
      obtain ⟨made, made', hmade, hmade', hnew⟩ | ⟨e, herror, herror'⟩ :=
        slice_follows hshows name offset length
      · rw [hmade, hmade', hall.length_eq]
        exact ⟨rfl, List.rel_append hall (.cons hnew .nil), fun hfailure => hfailure.elim⟩
      · rw [herror, herror']
        exact ⟨rfl, hall, fun _ => rfl⟩
    | clone =>
      dsimp only
      rw [hall.length_eq]
      exact ⟨rfl, List.rel_append hall (.cons hshows .nil), fun hfailure => hfailure.elim⟩
  · rw [List.getElem?_eq_none hge, List.getElem?_eq_none (hall.length_eq ▸ hge)]
    exact ⟨rfl, hall, fun _ => rfl⟩

/-- However many calls are made, the cursors answer as the views do. -/
theorem run_agrees (hn : 0 < n) (hlength : content.length < 2 ^ 64)
    (hall : List.Forall₂ (Shows n content) readers views) (calls : List (Nat × CursorCall)) :
    (ops.run readers calls).1 = (View.ops.run views calls).1 ∧
      List.Forall₂ (Shows n content) (ops.run readers calls).2 (View.ops.run views calls).2 := by
  induction calls generalizing readers views with
  | nil => exact ⟨rfl, hall⟩
  | cons call rest ih =>
    obtain ⟨number, call⟩ := call
    obtain ⟨hanswer, hnext, -⟩ := step_agrees hn hlength hall number call
    obtain ⟨hanswers, hlast⟩ := ih hnext
    simp only [CursorOps.run]
    exact ⟨by rw [hanswer, hanswers], hlast⟩

/-- The cursors that are made from one on a loaded file, by slicing and copying, answer any calls as
views of the content do, each with its own part of it and its own position. A call that comes to
nothing changes no cursor, and every call leaves alone the cursors that it is not made to. -/
theorem answers_as_views {v : Volume} {name : String} {length : Nat} {client after : Client}
    {file : LoadedFile} (hload : v.load name length client = .ok file after)
    (hlength : length < 2 ^ 64) (description : String) (calls : List (Nat × CursorCall)) :
    let content := file.blocks.toList.flatten
    let result := ops.run [Reader.new description file] calls
    let result' := View.ops.run [⟨description, content, 0⟩] calls
    content.length = length ∧ result.1 = result'.1 ∧
      List.Forall₂ (Shows v.blockSize content) result.2 result'.2 ∧
      ∀ number call,
        let next := ops.step result.2 number call
        (next.1.IsFailure → next.2 = result.2) ∧
          ∀ other < result.2.length, other ≠ number → next.2[other]? = result.2[other]? := by
  obtain ⟨hsize, -, hcontent, hfile⟩ := Volume.load_ofContent hload
  generalize hbytes : file.blocks.toList.flatten = content at hcontent hfile
  subst hfile
  have hfits : content.length < 2 ^ 64 := hcontent ▸ hlength
  have hfirst := shows_new description v.blockSize content
  obtain ⟨hanswers, hall⟩ := run_agrees hsize hfits (.cons hfirst .nil) calls
  exact ⟨hcontent, hanswers, hall, fun number call =>
    ⟨(step_agrees hsize hfits hall number call).2.2,
      fun other hother hne => ops.step_others _ call hother hne⟩⟩

/-- A slice of a slice that lies across two blocks, read to its end while its parents move. -/
theorem answers_as_views_nested :
    let v := Volume.ofConfig { Config.standard with blockSize := 4 }
    let store := (((∅ : Store).put v.blocksKey (Layout.blockKey "a" 0) [1, 2, 3, 4]).put
      v.blocksKey (Layout.blockKey "a" 1) [5, 6, 7, 8]).put
      v.blocksKey (Layout.blockKey "a" 2) [9, 10]
    let client : Client := ⟨.single ⟨0, 0, true⟩ false, Wire.new.setStore 0 store, none⟩
    let view : View := ⟨"a", [1, 2, 3, 4, 5, 6, 7, 8, 9, 10], 0⟩
    let calls := [(0, .slice "b" 1 8), (1, .seek 8), (1, .slice "c" 2 6), (2, .readByte),
      (1, .seekFrom .end (-9)), (2, .slice "d" 3 4), (2, .readBytes 4), (2, .readBytes 2),
      (0, .readSome 99), (2, .readSome 99)]
    10 < 2 ^ 64 ∧ ∃ file after, v.load "a" 10 client = .ok file after ∧
      let result := ops.run [Reader.new "a" file] calls
      let result' := View.ops.run [view] calls
      result.1 = result'.1 ∧ result'.1[6]? = some (.bytes [5, 6, 7, 8]) ∧
        result'.1[9]? = some (.bytes [9]) ∧
        List.Forall₂ (Shows 4 view.content) result.2 result'.2 := by
  intro v store client view calls
  refine ⟨by decide, ?_⟩
  have hread : (outcome (v.load "a" 10 client)).toOption.map (·.blocks.toList.flatten) =
      some view.content := by decide +kernel
  cases hload : v.load "a" 10 client with
  | error e after =>
    rw [hload] at hread
    cases hread
  | ok file after =>
    rw [hload] at hread
    have hcontent : file.blocks.toList.flatten = view.content := Option.some.inj hread
    obtain ⟨-, hanswers, hshows, -⟩ := answers_as_views hload (by decide) "a" calls
    rw [hcontent] at hanswers hshows
    exact ⟨file, after, rfl, hanswers, by cbv, by cbv, hshows⟩

end Reader

end BlockDir
