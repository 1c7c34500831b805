import BlockDir.Proofs.Cursor.Records
import BlockDir.Proofs.Directory.Appearing
import BlockDir.Proofs.Directory.Isolation

/-!
# Records

A record is a file of values. It is written with one output, and read with the shapes of its values in
the same order. Without faults it is read back as it was written, to its end, wherever the values are
cut into blocks (`Desk.record_reads_back`).
-/

namespace BlockDir

open Client

/-- Whether saving a file under a name gets past what the catalog has there: nothing, or an entry of the
right width that calls for no more blocks than a file may have. -/
def Volume.Replaceable (v : Volume) (name : String) (tables : Bytes → Table) : Prop :=
  ∀ stored, v.entryIn name tables = some stored → stored.length = Layout.lengthBytes ∧
    Layout.blockCount stored.toNat v.blockSize ≤ Layout.maxBlocks

/-- With blocks of some size, a file is replaced just if its length is read and its blocks are counted. -/
theorem Volume.replaceable_iff {v : Volume} (hsize : 0 < v.blockSize) {name : String}
    {tables : Bytes → Table} :
    v.Replaceable name tables ↔ ∃ previous stale, v.lengthIn name tables = .ok previous ∧
      v.staleCount name previous = .ok stale := by
  constructor
  · intro h
    cases hentry : v.entryIn name tables with
    | none => exact ⟨none, 0, by simp [lengthIn, hentry, pure, Except.pure], rfl⟩
    | some stored =>
      obtain ⟨hwidth, hfew⟩ := h stored hentry
      exact ⟨some stored.toNat, _, lengthIn_eq_some_iff.2 ⟨stored, hentry, hwidth, rfl⟩,
        storedCount_eq_ok_iff.2 ⟨hsize, rfl, hfew⟩⟩
  · rintro ⟨previous, stale, hprevious, hstale⟩ stored hentry
    cases previous with
    | none =>
      rw [lengthIn, hentry] at hprevious
      cases hdecode : Layout.decodeLength name stored <;>
        simp [hdecode, bind, Except.bind, pure, Except.pure] at hprevious
    | some length =>
      obtain ⟨found, hfound, hwidth, rfl⟩ := lengthIn_eq_some_iff.1 hprevious
      obtain rfl := Option.some.inj (hfound.symm.trans hentry)
      obtain ⟨-, rfl, hfew⟩ := storedCount_eq_ok_iff.1 hstale
      exact ⟨hwidth, hfew⟩

namespace Directory

variable {d : Directory} {tables : Bytes → Table} {name : String}

theorem storePlan_of_replaceable (hopen : d.closed = false) (hv : d.volume.Proper)
    (h : d.volume.Replaceable name tables) (writes : List Bytes) :
    ∃ stale, d.storePlan (d.outputOf name writes) tables = .ok ((), d.volume.saveBatch name
      (d.volume.storedForms writes.flatten) writes.flatten.length stale) := by
  obtain ⟨hname, hsize, hcollected⟩ := outputOf_spec hv name writes
  obtain ⟨previous, stale, hprevious, hstale⟩ := (Volume.replaceable_iff hv.blockSize_pos).1 h
  rw [← hname] at hprevious hstale
  rw [storePlan_eq hopen hv hsize hcollected hprevious, hstale, hname]
  exact ⟨stale, rfl⟩

/-- A file that is read as some content is opened as the blocks of it. -/
theorem ReadsIn.inputIn (hv : d.volume.Proper) {content : Bytes} (h : d.ReadsIn tables name content) :
    d.inputIn name tables = .ok
      (Reader.new name (LoadedFile.ofContent d.volume.blockSize content)) := by
  obtain ⟨hopen, hlength, stored, hstored, hblocks⟩ := (readsIn_iff_blocks hv).1 h
  exact inputIn_eq_ok_iff.2 ⟨hopen, content.length, _, hlength,
    Volume.loadedIn_eq_ok_iff.2 ⟨stored, _, hstored, hblocks, rfl⟩, rfl⟩

end Directory

namespace Desk

/-- Appends a value to an output. -/
def put (output : Output) (datum : Datum) : DeskM Output := do
  write output (← give datum.encode)

/-- Writes a file of values, from the first to the last. -/
def record (name : String) (data : List Datum) : DeskM Unit := do
  closeOutput (← data.foldlM put (← createOutput name))

variable {desk : Desk}

theorem put_eq_ok {datum : Datum} (h : datum.Fits) (output : Output) :
    put output datum desk = .ok (output.write datum.stored)
      { desk with directory := (desk.directory.write output datum.stored).2 } := by
  simp only [put, Datum.encode_eq_ok h]
  rfl

/-- Values that fit are appended one after another, and of the directory only its account of memory
changes. -/
theorem putAll_eq_ok {data : List Datum} (h : ∀ datum ∈ data, datum.Fits) (output : Output)
    (desk : Desk) :
    ∃ buffered, data.foldlM put output desk =
      .ok ((data.map Datum.stored).foldl Output.write output)
        { desk with directory := { desk.directory with buffered } } := by
  induction data generalizing output desk with
  | nil => exact ⟨_, rfl⟩
  | cons datum rest ih =>
    obtain ⟨hdatum, hrest⟩ := List.forall_mem_cons.1 h
    obtain ⟨buffered, hok⟩ := ih hrest (output.write datum.stored)
      { desk with directory := (desk.directory.write output datum.stored).2 }
    refine ⟨buffered, ?_⟩
    simp only [List.foldlM_cons, bind, EStateM.bind, put_eq_ok hdatum, List.map_cons, List.foldl_cons]
    exact hok

/-- Without faults, an output is closed, and then its file is read as what was written to it. -/
theorem closeOutput_eq_ok (desk : Desk) (hvalid : desk.directory.config.validate = .ok ())
    (hopen : desk.directory.closed = false) (hsound : desk.client.Sound)
    (hsteady : desk.client.Steady desk.directory.volume.keys) {name : String}
    (hreplaceable : desk.directory.volume.Replaceable name desk.client.table) {writes : List Bytes}
    (hsmall : Layout.blockCount writes.flatten.length desk.directory.config.blockSize ≤
      Layout.maxBlocks) :
    let output := desk.directory.outputOf name writes
    ∃ after, closeOutput output desk = .ok () after ∧
      after.directory = desk.directory.release output ∧ desk.client.Later after.client ∧
      after.directory.ReadsIn after.client.table name writes.flatten := by
  intro output
  have hv : desk.directory.volume.Proper := Volume.proper_ofConfig hvalid
  obtain ⟨houtcome, hdirectory, hlater, htable⟩ :=
    (Mutation.closeOutput output).run_steady hsound hsteady
  obtain ⟨stale, hplan⟩ := Directory.storePlan_of_replaceable hopen hv hreplaceable writes
  rw [Mutation.plan, Plan.answer, hplan] at houtcome
  rw [Mutation.plan, Plan.batch, hplan] at htable
  rw [Mutation.run] at houtcome hdirectory hlater htable
  generalize closeOutput output desk = result at houtcome hdirectory hlater htable
  cases result with
  | error e after => cases houtcome
  | ok done after =>
    simp only [finalState] at hdirectory htable hlater
    refine ⟨after, rfl, hdirectory, hlater, ?_⟩
    rw [hdirectory, htable]
    exact Directory.readsIn_saveBatch (d := desk.directory.release output) hv hopen hsmall name stale

/-- Without faults, a file of values is written, and it is read as just what they take. -/
theorem record_eq_ok (hvalid : desk.directory.config.validate = .ok ())
    (hopen : desk.directory.closed = false) (hsound : desk.client.Sound)
    (hsteady : desk.client.Steady desk.directory.volume.keys) {name : String} (hname : name ≠ "")
    (hreplaceable : desk.directory.volume.Replaceable name desk.client.table) {data : List Datum}
    (hfits : ∀ datum ∈ data, datum.Fits)
    (hsmall : Layout.blockCount (data.map Datum.stored).flatten.length
      desk.directory.config.blockSize ≤ Layout.maxBlocks) :
    ∃ after, record name data desk = .ok () after ∧
      after.directory.volume = desk.directory.volume ∧ desk.client.Later after.client ∧
      after.directory.ReadsIn after.client.table name (data.map Datum.stored).flatten := by
  let created : Desk := { desk with
    directory := { desk.directory with pending := name :: desk.directory.pending } }
  have hcreate : createOutput name desk = .ok (desk.directory.outputOf name []) created := by
    simp only [createOutput, Directory.createOutput_of_open hopen, if_neg hname]
    rfl
  obtain ⟨buffered, hput⟩ := putAll_eq_ok hfits (desk.directory.outputOf name []) created
  let filled : Desk := { created with directory := { created.directory with buffered } }
  have hfilled : filled.client.Sound := hsound
  obtain ⟨after, hclose, hdirectory, hlater, hreads⟩ :=
    closeOutput_eq_ok filled hvalid hopen hfilled hsteady hreplaceable hsmall
  refine ⟨after, ?_, ?_, hlater, hreads⟩
  · simp only [record, bind, EStateM.bind, hcreate, hput]
    exact hclose
  · rw [hdirectory]
    rfl

/-- Without faults, values that fit are read back as they were written if their stored forms take no
more blocks than a file may have, and the last of them ends where the file does. -/
theorem record_reads_back (hvalid : desk.directory.config.validate = .ok ())
    (hopen : desk.directory.closed = false) (hsound : desk.client.Sound)
    (hsteady : desk.client.Steady desk.directory.volume.keys) {name : String} (hname : name ≠ "")
    (hreplaceable : desk.directory.volume.Replaceable name desk.client.table) {data : List Datum}
    (hfits : ∀ datum ∈ data, datum.Fits)
    (hsmall : Layout.blockCount (data.map Datum.stored).flatten.length
      desk.directory.config.blockSize ≤ Layout.maxBlocks) :
    ∃ written opened reader, record name data desk = .ok () written ∧
      onClient (·.openInput name) written = .ok reader opened ∧
      (data.map Datum.shape).mapM Shape.read reader =
        .ok data { reader with position := reader.length } := by
  obtain ⟨written, hwritten, hvolume, hlater, hreads⟩ :=
    record_eq_ok hvalid hopen hsound hsteady hname hreplaceable hfits hsmall
  have hv : written.directory.volume.Proper := hvolume ▸ Volume.proper_ofConfig hvalid
  obtain ⟨after, hinput, -⟩ := (written.directory.reads_openInput name).steady
    (hlater.sound hsound) (hvolume ▸ hlater.steady hsteady)
  rw [hreads.inputIn hv, give_ok] at hinput
  have hahead := Reader.ahead_new name hv.blockSize_pos (data.map Datum.stored).flatten
  generalize Reader.new name _ = reader at hinput hahead
  refine ⟨written, ⟨written.directory, after⟩, reader, hwritten, by simp only [onClient, hinput], ?_⟩
  rw [Reader.takes_all hfits _ [] (by rwa [List.append_nil]), Reader.advance, hahead.length_eq]

/-- Values of all shapes in blocks of three bytes, over an older file and on a cluster. -/
theorem record_reads_back_mixed :
    let d : Directory := ⟨{ Config.standard with blockSize := 3, compress := true }, 0, [], false⟩
    let backend : Backend := .cluster #v[⟨0, 0, true⟩, ⟨1, 1, true⟩] false
    let older := finalState (record "a" [.bytes [1, 2, 3, 4]] ⟨d, backend, Wire.new, none⟩)
    let desk : Desk := ⟨d, backend,
      (Wire.new.setStore 0 (older.stores 0)).setStore 1 (older.stores 1), none⟩
    let data : List Datum := [.varint32 (-1), .int64 (-2 ^ 63), .text "é€", .varint64 (-2 ^ 63),
      .byte 7, .int16 (-300), .varint64 300, .bytes [1, 2, 3, 4, 5], .int32 (2 ^ 31 - 1), .text ""]
    ∃ written opened reader, record "a" data desk = .ok () written ∧
      onClient (·.openInput "a") written = .ok reader opened ∧
      (data.map Datum.shape).mapM Shape.read reader =
        .ok data { reader with position := reader.length } := by
  intro d backend older desk data
  have hsound : desk.client.Sound := by
    refine ⟨?_, rfl⟩
    intro _ slot
    fin_cases slot <;> rfl
  have hsteady : desk.client.Steady d.volume.keys := ⟨rfl, fun _ _ => rfl⟩
  have hreplaceable : d.volume.Replaceable "a" desk.client.table := by
    have hentry : d.volume.entryIn "a" desk.client.table = some [0, 0, 0, 0, 0, 0, 0, 4] := by
      decide +kernel
    rintro stored hstored
    obtain rfl := Option.some.inj (hentry.symm.trans hstored)
    decide
  have hfits : ∀ datum ∈ data, datum.Fits := by decide +kernel
  have hsmall : Layout.blockCount (data.map Datum.stored).flatten.length 3 ≤ Layout.maxBlocks := by
    decide +kernel
  exact record_reads_back rfl rfl hsound hsteady (by decide) hreplaceable hfits hsmall

end Desk

end BlockDir
