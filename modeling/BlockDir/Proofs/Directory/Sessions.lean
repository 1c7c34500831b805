import BlockDir.Lock
import BlockDir.Proofs.Cursor.Bounds
import BlockDir.Proofs.Directory.Safety

/-!
# Sessions

A session is all that can be done with one directory, with the outputs and the cursors that it hands
out. Whatever the stores hold, also if others change them at any time, no call of a session fails but
with a foreseen error, and cursors and outputs stay within bounds (`Session.stays_in_bounds`).
-/

namespace BlockDir

/-- A call to a directory, to one of its outputs or to a cursor on one of its files. Outputs and
cursors are numbered in the order in which they were made. -/
inductive SessionCall where
  | list
  | has (name : String)
  | length (name : String)
  | delete (name : String)
  | rename (source dest : String)
  | sync (names : List String)
  | check
  | lock (name : String)
  | create (name : String)
  | openInput (name : String)
  | close
  | write (number : Nat) (datum : Datum)
  | checksum (number : Nat)
  | closeOutput (number : Nat)
  | dropOutput (number : Nat)
  | cursor (number : Nat) (call : CursorCall)
  | read (number : Nat) (shape : Shape)
  | closeCursor (number : Nat)
  /-- Others put whatever they like into a store. -/
  | meddle (number : Nat) (store : Store)

/-- How many bytes a call hands over. -/
def SessionCall.size : SessionCall → Nat
  | write _ datum => (datum.encode.toOption.map List.length).getD 0
  | _ => 0

/-- What a call is answered. -/
inductive SessionAnswer where
  | done
  | names (names : List String)
  | truth (truth : Bool)
  | length (length : Nat)
  | report (report : Report)
  | lock (lock : HeldLock)
  /-- An output or a cursor was made. -/
  | made (number : Nat)
  | checksum (value : UInt32)
  | cursor (answer : CursorAnswer)
  | datum (datum : Datum)
  | failed (error : Error)
  /-- There is no output or cursor of that number, or not any more. -/
  | nobody

/-- A call that came to something, or to a foreseen error. -/
def SessionAnswer.Foreseen : SessionAnswer → Prop
  | failed e => e.Foreseen
  | cursor answer => answer.Foreseen
  | _ => True

/-- A directory at work with its lock files, its outputs until they are gone, and its cursors. -/
structure Session where
  desk : Desk
  locks : FileSystem × LockManager
  outputs : List (Option Output)
  cursors : List Reader

namespace Session

/-- A directory that handed nothing out yet. -/
def start (desk : Desk) (locks : FileSystem × LockManager) : Session := ⟨desk, locks, [], []⟩

/-- An output that is still there. -/
def output? (s : Session) (number : Nat) : Option Output := s.outputs[number]?.join

/-- Lets the directory work. -/
def perform {α : Type} (s : Session) (act : DeskM α) (answer : α → SessionAnswer) :
    SessionAnswer × Session :=
  match act s.desk with
  | .ok a desk => (answer a, { s with desk })
  | .error e desk => (.failed e, { s with desk })

/-- Lets the directory work on its tables. -/
def consult {α : Type} (s : Session) (act : Directory → ClientM α) (answer : α → SessionAnswer) :
    SessionAnswer × Session :=
  s.perform (Desk.onClient act) answer

/-- The response that a result is. -/
def settle {α : Type} (result : Except Error α) (answer : α → SessionAnswer) : SessionAnswer :=
  match result with
  | .ok a => answer a
  | .error e => .failed e

/-- The answer to a call, and the session after it. An output that is closed or dropped is gone,
whatever comes of it. -/
def step (s : Session) : SessionCall → SessionAnswer × Session
  | .list => s.consult (·.list) .names
  | .has name => s.consult (·.fileExists name) .truth
  | .length name => s.consult (·.fileLength name) .length
  | .delete name => s.consult (·.deleteFile name) fun _ => .done
  | .rename source dest => s.consult (·.renameFile source dest) fun _ => .done
  | .sync names => (settle (s.desk.directory.sync names) fun _ => .done, s)
  | .check => s.consult (·.check) .report
  | .lock name =>
    match s.desk.directory.ensureOpen "obtain_lock" with
    | .error e => (.failed e, s)
    | .ok () =>
      match LockManager.acquire name s.locks with
      | .ok lock locks => (.lock lock, { s with locks })
      | .error e locks => (.failed e, { s with locks })
  | .create name =>
    match Desk.createOutput name s.desk with
    | .ok output desk =>
      (.made s.outputs.length, { s with desk, outputs := s.outputs ++ [some output] })
    | .error e desk => (.failed e, { s with desk })
  | .openInput name =>
    match Desk.onClient (·.openInput name) s.desk with
    | .ok cursor desk => (.made s.cursors.length, { s with desk, cursors := s.cursors ++ [cursor] })
    | .error e desk => (.failed e, { s with desk })
  | .close => s.perform Desk.close fun _ => .done
  | .write number datum =>
    match s.output? number with
    | none => (.nobody, s)
    | some output =>
      match datum.encode with
      | .error e => (.failed e, s)
      | .ok data =>
        match Desk.write output data s.desk with
        | .ok output desk => (.done, { s with desk, outputs := s.outputs.set number (some output) })
        | .error e desk => (.failed e, { s with desk })
  | .checksum number =>
    match s.output? number with
    | none => (.nobody, s)
    | some output => (settle output.checksumValue .checksum, s)
  | .closeOutput number =>
    match s.output? number with
    | none => (.nobody, s)
    | some output =>
      { s with outputs := s.outputs.set number none }.perform (Desk.closeOutput output) fun _ => .done
  | .dropOutput number =>
    match s.output? number with
    | none => (.nobody, s)
    | some output =>
      { s with outputs := s.outputs.set number none }.perform (Desk.dropOutput output) fun _ => .done
  | .cursor number call =>
    let (answer, cursors) := Reader.ops.step s.cursors number call
    (.cursor answer, { s with cursors })
  | .read number shape =>
    match s.cursors[number]? with
    | none => (.nobody, s)
    | some cursor =>
      match shape.read cursor with
      | .ok datum cursor => (.datum datum, { s with cursors := s.cursors.set number cursor })
      | .error e cursor => (.failed e, { s with cursors := s.cursors.set number cursor })
  | .closeCursor number =>
    match s.cursors[number]? with
    | none => (.nobody, s)
    | some cursor => (.done, { s with cursors := s.cursors.set number cursor.close })
  | .meddle number store =>
    (.done, { s with desk.client.wire := s.desk.client.wire.setStore number store })

/-- The answers to calls that are made in turn, and the session after them. -/
def run (s : Session) : List SessionCall → List SessionAnswer × Session
  | [] => ([], s)
  | call :: rest =>
    let (response, next) := s.step call
    let (responses, last) := run next rest
    (response :: responses, last)

end Session

/-- A catalogued length has eight bytes, so it is a word of 64 bits. -/
theorem Volume.length?_lt {v : Volume} {name : String} {client after : Client} {length : Nat}
    (h : v.length? name client = .ok (some length) after) : length < 2 ^ 64 := by
  obtain ⟨found, middle, -, h⟩ := run_bind_eq_ok.1 h
  cases found with
  | none => exact nomatch h
  | some stored =>
    obtain ⟨decoded, last, hgive, h⟩ := run_bind_eq_ok.1 h
    obtain ⟨hdecode, -⟩ := give_eq_ok.1 hgive
    obtain ⟨hwidth, rfl⟩ := (Layout.decodeLength_eq_ok_iff name).1 hdecode
    obtain ⟨hlength, -⟩ := EStateM.Result.ok.inj h
    obtain rfl := Option.some.inj hlength
    rw [← Layout.encodeLength_toNat hwidth, Layout.encodeLength, Bytes.toNat_bigEndian]
    exact Nat.mod_lt _ (by decide)

/-- Whatever a file is loaded from, the cursor on it is within bounds. -/
theorem Directory.inBounds_openInput {d : Directory} {name : String} {client after : Client}
    {cursor : Reader} (h : d.openInput name client = .ok cursor after) : cursor.InBounds := by
  obtain ⟨-, start, -, h⟩ := run_bind_eq_ok.1 h
  obtain ⟨found, middle, hfound, h⟩ := run_bind_eq_ok.1 h
  cases found with
  | none => exact nomatch h
  | some length =>
    obtain ⟨file, last, hload, h⟩ := run_bind_eq_ok.1 h
    obtain ⟨rfl, -⟩ := EStateM.Result.ok.inj h
    exact Reader.inBounds_of_load hload (Volume.length?_lt hfound) name

theorem Desk.eq_new_of_createOutput {desk after : Desk} {name : String} {output : Output}
    (h : createOutput name desk = .ok output after) :
    output = Output.new name desk.directory.config.blockSize desk.directory.config.checksum := by
  unfold createOutput at h
  cases hcreate : desk.directory.createOutput name with
  | error e =>
    rw [hcreate] at h
    cases h
  | ok created =>
    rw [hcreate] at h
    cases h
    unfold Directory.createOutput at hcreate
    split at hcreate
    · cases hcreate
    · split at hcreate
      · cases hcreate
      · cases hcreate
        rfl

theorem Desk.onClient_eq_ok {α : Type} {act : Directory → ClientM α} {desk after : Desk} {a : α}
    (h : onClient act desk = .ok a after) :
    ∃ client, act desk.directory desk.client = .ok a client := by
  unfold onClient at h
  split at h
  · rename_i client hact
    cases h
    exact ⟨client, hact⟩
  · cases h

theorem LockManager.sane_lockAmid (trouble : Option LockTrouble) (path : Path) (identity : Nat)
    (files : FileSystem) : Sane Error.Foreseen (lockAmid trouble path identity files) := by
  unfold lockAmid
  split
  · exact sane_error nofun
  · split
    · exact sane_ok _
    · exact sane_error nofun

theorem LockManager.safe_acquireAmid (trouble : Option LockTrouble) (name : String) :
    Safe Error.Foreseen (fun _ => True) (acquireAmid trouble name) := by
  rintro ⟨files, m⟩ -
  rw [acquireAmid]
  by_cases hname : !isLockName name
  · rw [if_pos hname]
    exact ⟨trivial, nofun⟩
  · rw [if_neg hname]
    dsimp only
    cases openAmid trouble (m.directory ++ [name]) files with
    | error e files => exact ⟨trivial, nofun⟩
    | ok identity files =>
      dsimp only
      by_cases hheld : m.held.contains (m.directory ++ [name])
      · rw [if_pos hheld]
        exact ⟨trivial, nofun⟩
      · rw [if_neg hheld]
        have hsane := sane_lockAmid trouble (m.directory ++ [name]) identity files
        cases hlock : lockAmid trouble (m.directory ++ [name]) identity files with
        | ok files => trivial
        | error e => exact ⟨trivial, hsane e hlock⟩

theorem Datum.sane_encode (datum : Datum) : Sane Error.Foreseen datum.encode := by
  cases datum with
  | text value =>
    unfold encode
    dsimp only
    split
    · exact sane_error nofun
    · exact sane_ok _
  | _ => exact sane_ok _

theorem Output.sane_checksumValue (o : Output) : Sane Error.Foreseen o.checksumValue := by
  unfold checksumValue
  split
  · exact sane_ok _
  · exact sane_error nofun

namespace Session

variable {s : Session} {left : Nat}

/-- A session whose outputs can take `left` bytes more. -/
structure Tidy (s : Session) (left : Nat) : Prop where
  desk : s.desk.Fine
  room : left < 2 ^ 63
  outputs : ∀ output, some output ∈ s.outputs → output.Tidy ∧ output.position + left < 2 ^ 63
  cursors : ∀ cursor ∈ s.cursors, cursor.InBounds

/-- A call that came to something, or to a foreseen error, and left the session tidy. -/
def Settled (left : Nat) (result : SessionAnswer × Session) : Prop :=
  result.1.Foreseen ∧ result.2.Tidy left

theorem foreseen_settle {α : Type} {result : Except Error α} (h : Sane Error.Foreseen result)
    {answer : α → SessionAnswer} (hanswer : ∀ a, (answer a).Foreseen) :
    (settle result answer).Foreseen := by
  cases result with
  | ok a => exact hanswer a
  | error e => exact h e rfl

theorem mem_of_output? {number : Nat} {output : Output} (h : s.output? number = some output) :
    some output ∈ s.outputs :=
  List.mem_of_getElem? (Option.join_eq_some_iff.1 h)

namespace Tidy

theorem mono (h : s.Tidy left) {less : Nat} (hless : less ≤ left) : s.Tidy less :=
  ⟨h.desk, Nat.lt_of_le_of_lt hless h.room, fun output hmem =>
    ⟨(h.outputs output hmem).1,
      Nat.lt_of_le_of_lt (Nat.add_le_add_left hless _) (h.outputs output hmem).2⟩, h.cursors⟩

theorem drop (h : s.Tidy left) (number : Nat) :
    ({ s with outputs := s.outputs.set number none } : Session).Tidy left := by
  refine ⟨h.desk, h.room, fun output hmem => h.outputs output ?_, h.cursors⟩
  rcases List.mem_or_eq_of_mem_set hmem with hmem | heq
  · exact hmem
  · cases heq

theorem perform (h : s.Tidy left) {α : Type} {act : DeskM α}
    (hact : Safe Error.Foreseen Desk.Fine act)
    {answer : α → SessionAnswer} (hanswer : ∀ a, (answer a).Foreseen) :
    Settled left (s.perform act answer) := by
  have hdesk := hact s.desk h.desk
  unfold Session.perform
  cases hresult : act s.desk with
  | ok a desk =>
    rw [hresult] at hdesk
    exact ⟨hanswer a, hdesk, h.room, h.outputs, h.cursors⟩
  | error e desk =>
    rw [hresult] at hdesk
    exact ⟨hdesk.2, hdesk.1, h.room, h.outputs, h.cursors⟩

theorem consult (h : s.Tidy left) {α : Type} {act : Directory → ClientM α}
    (hact : ∀ d : Directory, 0 < d.volume.blockSize → Safe Error.Foreseen Client.Fine (act d))
    {answer : α → SessionAnswer} (hanswer : ∀ a, (answer a).Foreseen) :
    Settled left (s.consult act answer) :=
  h.perform (Desk.safe_onClient hact) hanswer

theorem create (h : s.Tidy left) (name : String) :
    Settled left (s.step (.create name)) := by
  have hdesk := Desk.safe_createOutput name s.desk h.desk
  rw [step]
  cases hresult : Desk.createOutput name s.desk with
  | error e desk =>
    rw [hresult] at hdesk
    exact ⟨hdesk.2, hdesk.1, h.room, h.outputs, h.cursors⟩
  | ok output desk =>
    rw [hresult] at hdesk
    refine ⟨trivial, hdesk, h.room, fun other hmem => ?_, h.cursors⟩
    rcases List.mem_append.1 hmem with hmem | hmem
    · exact h.outputs other hmem
    · obtain rfl := Option.some.inj (List.mem_singleton.1 hmem)
      rw [Desk.eq_new_of_createOutput hresult]
      refine ⟨Output.tidy_new name h.desk.blockSize_pos _, ?_⟩
      show 0 + left < 2 ^ 63
      rw [Nat.zero_add]
      exact h.room

theorem openInput (h : s.Tidy left) (name : String) : Settled left (s.step (.openInput name)) := by
  have hdesk : Fares Error.Foreseen Desk.Fine (Desk.onClient (·.openInput name) s.desk) :=
    Desk.safe_onClient (fun _ hsize => Directory.safe_openInput hsize name) s.desk h.desk
  rw [step]
  cases hresult : Desk.onClient (·.openInput name) s.desk with
  | error e desk =>
    rw [hresult] at hdesk
    exact ⟨hdesk.2, hdesk.1, h.room, h.outputs, h.cursors⟩
  | ok cursor desk =>
    rw [hresult] at hdesk
    obtain ⟨client, hopen⟩ := Desk.onClient_eq_ok hresult
    have hcursor := Directory.inBounds_openInput hopen
    exact ⟨trivial, hdesk, h.room, h.outputs, Reader.append_inBounds h.cursors hcursor⟩

theorem write (number : Nat) (datum : Datum)
    (h : s.Tidy ((SessionCall.write number datum).size + left)) :
    Settled left (s.step (.write number datum)) := by
  have hbefore := h.mono (Nat.le_add_left left _)
  rw [step]
  cases houtput : s.output? number with
  | none => exact ⟨trivial, hbefore⟩
  | some output =>
    have hsane := datum.sane_encode
    dsimp only
    cases hdata : datum.encode with
    | error e => exact ⟨hsane e hdata, hbefore⟩
    | ok data =>
      have hsize : (SessionCall.write number datum).size = data.length := by
        simp only [SessionCall.size, hdata]
        rfl
      obtain ⟨htidy, hfits⟩ := h.outputs output (mem_of_output? houtput)
      refine ⟨trivial, ⟨h.desk.valid, h.desk.client⟩, hbefore.room, fun other hmem => ?_, h.cursors⟩
      rcases List.mem_or_eq_of_mem_set hmem with hmem | heq
      · exact hbefore.outputs other hmem
      · obtain rfl := Option.some.inj heq
        refine ⟨htidy.write data, ?_⟩
        show output.position + data.length + left < 2 ^ 63
        omega

theorem read (h : s.Tidy left) (number : Nat) (shape : Shape) :
    Settled left (s.step (.read number shape)) := by
  rw [step]
  cases hcursor : s.cursors[number]? with
  | none => exact ⟨trivial, h⟩
  | some cursor =>
    have hread := Reader.safe_read shape cursor (h.cursors cursor (List.mem_of_getElem? hcursor))
    dsimp only
    cases hresult : shape.read cursor with
    | ok datum after =>
      rw [hresult] at hread
      exact ⟨trivial, h.desk, h.room, h.outputs, Reader.set_inBounds h.cursors number hread⟩
    | error e after =>
      rw [hresult] at hread
      exact ⟨hread.2, h.desk, h.room, h.outputs, Reader.set_inBounds h.cursors number hread.1⟩

theorem lock (h : s.Tidy left) (name : String) : Settled left (s.step (.lock name)) := by
  have hopen := s.desk.directory.sane_ensureOpen "obtain_lock"
  rw [step]
  cases hresult : s.desk.directory.ensureOpen "obtain_lock" with
  | error e => exact ⟨hopen e hresult, h⟩
  | ok =>
    have hacquire : Fares Error.Foreseen (fun _ => True) (LockManager.acquire name s.locks) :=
      LockManager.safe_acquireAmid none name s.locks trivial
    dsimp only
    cases hlock : LockManager.acquire name s.locks with
    | ok lock locks => exact ⟨trivial, h.desk, h.room, h.outputs, h.cursors⟩
    | error e locks =>
      rw [hlock] at hacquire
      exact ⟨hacquire.2, h.desk, h.room, h.outputs, h.cursors⟩

/-- What one call does to a session that is tidy. -/
theorem step (call : SessionCall) (h : s.Tidy (call.size + left)) :
    Settled left (s.step call) := by
  have hleft := h.mono (Nat.le_add_left left call.size)
  cases call with
  | list => exact hleft.consult (fun _ _ => Directory.safe_list) fun _ => trivial
  | has name => exact hleft.consult (fun _ _ => Directory.safe_fileExists name) fun _ => trivial
  | length name => exact hleft.consult (fun _ _ => Directory.safe_fileLength name) fun _ => trivial
  | delete name =>
    exact hleft.consult (fun _ hsize => Directory.safe_deleteFile hsize name) fun _ => trivial
  | rename source dest =>
    exact hleft.consult (fun _ hsize => Directory.safe_renameFile hsize source dest) fun _ => trivial
  | sync names =>
    exact ⟨foreseen_settle (s.desk.directory.sane_ensureOpen "sync") fun _ => trivial, hleft⟩
  | check => exact hleft.consult (fun _ _ => Directory.safe_check) fun _ => trivial
  | lock name => exact hleft.lock name
  | create name => exact hleft.create name
  | openInput name => exact hleft.openInput name
  | close => exact hleft.perform Desk.safe_close fun _ => trivial
  | write number datum => exact Tidy.write number datum h
  | checksum number =>
    rw [Session.step]
    cases s.output? number with
    | none => exact ⟨trivial, hleft⟩
    | some output => exact ⟨foreseen_settle output.sane_checksumValue fun _ => trivial, hleft⟩
  | closeOutput number =>
    rw [Session.step]
    cases s.output? number with
    | none => exact ⟨trivial, hleft⟩
    | some output => exact (hleft.drop number).perform (Desk.safe_closeOutput output) fun _ => trivial
  | dropOutput number =>
    rw [Session.step]
    cases s.output? number with
    | none => exact ⟨trivial, hleft⟩
    | some output => exact (hleft.drop number).perform (Desk.safe_dropOutput output) fun _ => trivial
  | cursor number call =>
    obtain ⟨hanswer, hcursors⟩ := Reader.step_inBounds h.cursors number call
    exact ⟨hanswer, hleft.desk, hleft.room, hleft.outputs, hcursors⟩
  | read number shape => exact hleft.read number shape
  | closeCursor number =>
    rw [Session.step]
    cases hcursor : s.cursors[number]? with
    | none => exact ⟨trivial, hleft⟩
    | some cursor =>
      have hclosed := (h.cursors cursor (List.mem_of_getElem? hcursor)).close
      have hcursors := Reader.set_inBounds h.cursors number hclosed
      exact ⟨trivial, hleft.desk, hleft.room, hleft.outputs, hcursors⟩
  | meddle number store =>
    exact ⟨trivial, ⟨h.desk.valid, h.desk.client⟩, hleft.room, hleft.outputs, h.cursors⟩

end Tidy

theorem tidy_start {desk : Desk} (hdesk : desk.Fine) (locks : FileSystem × LockManager)
    (hleft : left < 2 ^ 63) : (start desk locks).Tidy left :=
  ⟨hdesk, hleft, fun _ hmem => absurd hmem List.not_mem_nil,
    fun _ hmem => absurd hmem List.not_mem_nil⟩

/-- What any calls do to a session that is tidy. -/
theorem Tidy.run (calls : List SessionCall) (h : s.Tidy ((calls.map SessionCall.size).sum + left)) :
    (∀ response ∈ (s.run calls).1, response.Foreseen) ∧ (s.run calls).2.Tidy left := by
  induction calls generalizing s with
  | nil =>
    refine ⟨fun _ hmem => absurd hmem List.not_mem_nil, h.mono ?_⟩
    exact Nat.le_add_left _ _
  | cons call rest ih =>
    rw [List.map_cons, List.sum_cons, Nat.add_assoc] at h
    obtain ⟨hanswer, hnext⟩ := h.step call
    obtain ⟨hanswers, hlast⟩ := ih hnext
    refine ⟨fun response hmem => ?_, hlast⟩
    rcases List.mem_cons.1 hmem with rfl | hmem
    · exact hanswer
    · exact hanswers response hmem

/-- Whatever stands in the stores, and whatever is called for: no call fails but with a foreseen error.
At every moment each cursor reaches only blocks that are there and bytes that are in them, and what is
gathered from them makes progress with every piece; each output has room where it is filled, and is
filled with progress in every round; and the blocks of a file that is loaded start before its end. -/
theorem stays_in_bounds {desk : Desk} (hvalid : desk.directory.config.validate = .ok ())
    (hfine : desk.client.wire.Suffers Fault.Foreseen) (locks : FileSystem × LockManager)
    (calls : List SessionCall) (hfew : (calls.map SessionCall.size).sum < 2 ^ 63) :
    let result := (start desk locks).run calls
    (∀ response ∈ result.1, response.Foreseen) ∧
      (∀ cursor ∈ result.2.cursors, cursor.InBounds ∧
        ∀ file, cursor.file = some file → ∀ position count, position + count ≤ cursor.length →
          ∃ pieces, file.gather [] (cursor.base + position) count = .ok pieces ∧
            ∀ piece ∈ pieces, piece ≠ []) ∧
      (∀ output, some output ∈ result.2.outputs → output.InBounds ∧ output.position < 2 ^ 63 ∧
        ∀ data, Output.pourAll output.blockSize output.blocks data = some (output.write data).blocks) ∧
      (0 < result.2.desk.directory.volume.blockSize ∧
        ∀ name length stored middle last,
          result.2.desk.directory.volume.length? name result.2.desk.client =
            .ok (some length) middle →
          result.2.desk.directory.volume.loadStored name length middle = .ok stored last →
          length < 2 ^ 64 ∧ ∀ index < stored.length,
            index * result.2.desk.directory.volume.blockSize < length) := by
  have hstart : (start desk locks).Tidy ((calls.map SessionCall.size).sum + 0) :=
    tidy_start ⟨hvalid, hfine⟩ locks hfew
  obtain ⟨hanswers, hlast⟩ := Tidy.run calls hstart
  refine ⟨hanswers, fun cursor hmem => ?_, fun output hmem => ?_, hlast.desk.blockSize_pos,
    fun name length stored middle last hlength hload => ?_⟩
  · have hcursor := hlast.cursors cursor hmem
    refine ⟨hcursor, fun file hfile position count hinside => ?_⟩
    obtain ⟨pieces, hok, hsome⟩ := hcursor.gather hfile [] position count hinside
    rw [List.append_nil] at hok
    exact ⟨pieces, hok, hsome⟩
  · obtain ⟨htidy, hposition⟩ := hlast.outputs output hmem
    have hbounds := htidy.inBounds
    exact ⟨hbounds, hposition, Output.pourAll_eq_fill hbounds.divisor hbounds.last⟩
  · obtain ⟨hsize, hcount, -⟩ := Volume.storedCount_eq_ok_iff.1 (Volume.length_of_loadStored hload)
    refine ⟨Volume.length?_lt hlength, fun index hindex => ?_⟩
    rw [hcount] at hindex
    exact (Layout.lt_blockCount_iff hsize).1 hindex

/-- A file whose first block is too long is read through a slice of a slice, also after its cursor is
closed. Then its entry is made to claim all bytes that there can be, and the link breaks. -/
theorem stays_in_bounds_damaged :
    let config := { Config.standard with blockSize := 4 }
    let v := Volume.ofConfig config
    let store := (((∅ : Store).put v.catalogKey (Utf8.encode "a") [0, 0, 0, 0, 0, 0, 0, 6]).put
      v.blocksKey (Layout.blockKey "a" 0) [255, 2, 3, 4, 5, 6]).put
      v.blocksKey (Layout.blockKey "a" 1) [7, 8]
    let claiming := store.put v.catalogKey (Utf8.encode "a") [255, 255, 255, 255, 255, 255, 255, 255]
    let wire := (Wire.new.setStore 0 store).arm ⟨.send .transaction, Fault.lost, 1⟩
    let desk : Desk := ⟨⟨config, 0, [], false⟩, ⟨.single ⟨0, 0, true⟩ false, wire, none⟩⟩
    let locks : FileSystem × LockManager := (.new "/", ⟨[], []⟩)
    let calls : List SessionCall := [.openInput "a", .cursor 0 (.slice "b" 1 5), .closeCursor 0,
      .read 0 .text, .cursor 1 (.slice "c" 1 4), .read 2 .int32, .read 2 .byte, .meddle 0 claiming,
      .openInput "a", .create "b", .write 0 (.bytes [1, 2, 3, 4, 5]), .closeOutput 0, .check]
    config.validate = .ok () ∧ wire.Suffers Fault.Foreseen ∧
      (calls.map SessionCall.size).sum < 2 ^ 63 ∧
      let result := (start desk locks).run calls
      result.2.cursors.map (·.position) = [0, 0, 4] ∧
        (∀ response ∈ result.1, response.Foreseen) ∧ ∀ cursor ∈ result.2.cursors, cursor.InBounds := by
  intro config v store claiming wire desk locks calls
  have hfine : wire.Suffers Fault.Foreseen :=
    Wire.Suffers.arm (Wire.suffers_of_threats_nil rfl _) nofun
  have hfew : (calls.map SessionCall.size).sum < 2 ^ 63 := by decide
  have hpositions : ((start desk locks).run calls).2.cursors.map (·.position) = [0, 0, 4] := by
    decide +kernel
  have hvalid : desk.directory.config.validate = .ok () := rfl
  obtain ⟨hanswers, hcursors, -⟩ := stays_in_bounds hvalid hfine locks calls hfew
  exact ⟨hvalid, hfine, hfew, hpositions, hanswers, fun cursor hmem => (hcursors cursor hmem).1⟩

end Session

end BlockDir
