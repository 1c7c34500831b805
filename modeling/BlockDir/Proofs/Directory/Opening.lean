import BlockDir.Proofs.Volume.Loading

/-!
# Which files can be read

A directory reads a file as some content if opening it gives a cursor from which exactly that content
is read. Without faults this depends on the tables alone, as long as the backend serves what is
needed: always the catalog, and the block table for a file that is not empty.
-/

namespace BlockDir

open Client

theorem Reader.readToEnd_new (description : String) (file : LoadedFile) (content : Bytes) :
    (∃ last, Reader.readToEnd (Reader.new description file) = .ok content last) ↔
      file.bytesAt 0 file.length = .ok content := by
  have hrun : Reader.readToEnd (Reader.new description file) =
      match file.bytesAt 0 file.length with
      | .ok bytes => .ok bytes { Reader.new description file with position := file.length }
      | .error e => .error e.toIo (Reader.new description file) := by
    simp only [readToEnd, readSome, asStream, readBytes, remaining, Reader.new, openFile,
      Nat.sub_zero, Nat.min_self, Nat.lt_irrefl, if_false, Nat.zero_add]
    cases file.bytesAt 0 file.length <;> rfl
  rw [hrun]
  cases file.bytesAt 0 file.length <;> simp

namespace Directory

variable {d : Directory}

/-- Whether opening a file gives a cursor from which `content` is read, and no more. -/
def ReadsAs (d : Directory) (client : Client) (name : String) (content : Bytes) : Prop :=
  ∃ reader after last, d.openInput name client = .ok reader after ∧
    Reader.readToEnd reader = .ok content last

instance (d : Directory) (client : Client) (name : String) (content : Bytes) :
    Decidable (d.ReadsAs client name content) :=
  match hopen : d.openInput name client with
  | .error _ _ => isFalse fun ⟨_, _, _, hok, _⟩ => nomatch hopen.symm.trans hok
  | .ok reader after =>
    match hread : Reader.readToEnd reader with
    | .error _ _ => isFalse fun ⟨_, _, _, hok, hread'⟩ => by
      obtain ⟨rfl, -⟩ := EStateM.Result.ok.inj (hopen.symm.trans hok)
      cases hread.symm.trans hread'
    | .ok found last =>
      if hfound : found = content then
        isTrue ⟨reader, after, last, hopen, hfound ▸ hread⟩
      else
        isFalse fun ⟨_, _, _, hok, hread'⟩ => by
          obtain ⟨rfl, -⟩ := EStateM.Result.ok.inj (hopen.symm.trans hok)
          exact hfound (EStateM.Result.ok.inj (hread.symm.trans hread')).1

/-- The same, told from the tables. -/
def ReadsIn (d : Directory) (tables : Bytes → Table) (name : String) (content : Bytes) : Prop :=
  ∃ reader last, d.inputIn name tables = .ok reader ∧ Reader.readToEnd reader = .ok content last

theorem inputIn_eq_ok_iff {name : String} {tables : Bytes → Table} {reader : Reader} :
    d.inputIn name tables = .ok reader ↔ d.closed = false ∧
      ∃ length file, d.volume.lengthIn name tables = .ok (some length) ∧
        d.volume.loadedIn name length tables = .ok file ∧ reader = Reader.new name file := by
  cases hclosed : d.closed with
  | true => simp [inputIn, ensureOpen, hclosed, bind, Except.bind]
  | false =>
    cases hlength : d.volume.lengthIn name tables with
    | error e => simp [inputIn, ensureOpen, hclosed, hlength, bind, Except.bind]
    | ok found =>
      cases found with
      | none =>
        simp [inputIn, ensureOpen, hclosed, hlength, bind, Except.bind, throw, throwThe,
          MonadExceptOf.throw]
      | some length =>
        cases hfile : d.volume.loadedIn name length tables with
        | error e =>
          simp [inputIn, ensureOpen, hclosed, hlength, hfile, bind, Except.bind]
        | ok file =>
          simp [inputIn, ensureOpen, hclosed, hlength, hfile, bind, Except.bind, pure, Except.pure,
            eq_comm]

theorem readsIn_iff {name : String} {tables : Bytes → Table} {content : Bytes} :
    d.ReadsIn tables name content ↔ d.closed = false ∧
      ∃ length file, d.volume.lengthIn name tables = .ok (some length) ∧
        d.volume.loadedIn name length tables = .ok file ∧
        file.bytesAt 0 file.length = .ok content := by
  constructor
  · rintro ⟨reader, last, hinput, hread⟩
    obtain ⟨hclosed, length, file, hlength, hfile, rfl⟩ := inputIn_eq_ok_iff.1 hinput
    exact ⟨hclosed, length, file, hlength, hfile, (Reader.readToEnd_new ..).1 ⟨last, hread⟩⟩
  · rintro ⟨hclosed, length, file, hlength, hfile, hbytes⟩
    obtain ⟨last, hread⟩ := (Reader.readToEnd_new name file content).2 hbytes
    exact ⟨_, last, inputIn_eq_ok_iff.2 ⟨hclosed, length, file, hlength, hfile, rfl⟩, hread⟩

theorem readsIn_of_agree {a b : Bytes → Table} {name : String} {content : Bytes}
    (h : d.volume.Agree name a b) (hread : d.ReadsIn b name content) : d.ReadsIn a name content := by
  obtain ⟨hclosed, length, file, hlength, hfile, hbytes⟩ := readsIn_iff.1 hread
  exact readsIn_iff.2
    ⟨hclosed, length, file, h.lengthIn.trans hlength, (h.loadedIn length).trans hfile, hbytes⟩

/-- Without faults, and with all keys served, a file that the tables hold can be opened. -/
theorem readsAs_of_steady {client : Client} (hsound : client.Sound)
    (hsteady : client.Steady d.volume.keys) {name : String} {content : Bytes}
    (h : d.ReadsIn client.table name content) : d.ReadsAs client name content := by
  obtain ⟨reader, last, hinput, hread⟩ := h
  obtain ⟨after, hopen, -⟩ := (d.reads_openInput name).steady hsound hsteady
  rw [hinput] at hopen
  exact ⟨reader, after, last, hopen, hread⟩

theorem readsIn_of_readsAs {client : Client} (hsound : client.Sound)
    (htrue : client.wire.Suffers Fault.Truthful) {name : String} {content : Bytes}
    (h : d.ReadsAs client name content) : d.ReadsIn client.table name content := by
  obtain ⟨reader, after, last, hopen, hread⟩ := h
  obtain ⟨final, -, -, hok | ⟨-, e, herror⟩⟩ := d.reads_openInput name client hsound htrue
  · rw [hopen] at hok
    cases hinput : d.inputIn name client.table with
    | error e =>
      rw [hinput] at hok
      cases hok
    | ok found =>
      rw [hinput] at hok
      cases hok
      exact ⟨reader, last, hinput, hread⟩
  · rw [hopen] at herror
    cases herror

/-- A file that can be opened without faults has all that it takes served. -/
theorem serves_of_readsAs {client : Client} (hsound : client.Sound)
    (hnone : client.wire.threats = []) {name : String} {content : Bytes}
    (h : d.ReadsAs client name content) :
    client.backend.Serves d.volume.catalogKey ∧
      (d.volume.lengthIn name client.table = .ok (some 0) ∨
        client.backend.Serves d.volume.blocksKey) := by
  obtain ⟨reader, after, last, hopen, -⟩ := h
  have hclosed : d.ensureOpen "open_input" = .ok () := by
    cases hensure : d.ensureOpen "open_input" with
    | ok _ => rfl
    | error e => simp [openInput, hensure, bind, EStateM.bind] at hopen
  have hcatalog : client.backend.Serves d.volume.catalogKey := by
    by_contra hserves
    obtain ⟨e, herror⟩ := lend_of_not_serves hsound hnone hserves (fun _ => false)
      (·.getField d.volume.catalogKey (Utf8.encode name))
    simp [openInput, hclosed, Volume.length?, getField, onLink, herror, bind, EStateM.bind] at hopen
  refine ⟨hcatalog, ?_⟩
  obtain ⟨middle, hlength, hlater, -⟩ :=
    (d.volume.reads_entry name).steady hsound ⟨hnone, by simpa using hcatalog⟩
  cases hfound : d.volume.lengthIn name client.table with
  | error e => simp [openInput, hclosed, hlength, hfound, bind, EStateM.bind] at hopen
  | ok found =>
    cases found with
    | none =>
      simp [openInput, hclosed, hlength, hfound, bind, EStateM.bind, throw, throwThe,
        MonadExceptOf.throw, EStateM.throw] at hopen
    | some length =>
      by_contra hno
      obtain ⟨hlong, hserves⟩ := not_or.1 hno
      have hpos : 0 < length := by
        rcases Nat.eq_zero_or_pos length with rfl | hpos
        · exact absurd rfl hlong
        · exact hpos
      have hmiddle : middle.wire.threats = [] := List.subset_nil.1 (hnone ▸ hlater.threats)
      have hslots := fetchSlots_of_not_serves (hlater.sound hsound) hmiddle
        (fun h => hserves ((hlater.backend.serves _).1 h))
      cases hcount : d.volume.storedCount name length with
      | error e =>
        simp [openInput, hclosed, hlength, hfound, Volume.load, Volume.loadStored, hcount, bind,
          EStateM.bind] at hopen
      | ok count =>
        have hblocks : 0 < count := Volume.storedCount_pos hcount hpos
        obtain ⟨more, rfl⟩ := Nat.exists_eq_succ_of_ne_zero (Nat.ne_of_gt hblocks)
        have hwindow := hlater.window.trans hsound.window
        simp [openInput, hclosed, hlength, hfound, Volume.load, Volume.loadStored, hcount,
          Client.fetch, hslots, hwindow, Volume.assemble, Fetched.isComplete, Fetched.ofSlots,
          List.replicate_succ, List.zipIdx_cons, bind, EStateM.bind, get, getThe, MonadStateOf.get,
          EStateM.get, pure, EStateM.pure] at hopen

/-- A file that the tables hold can be opened without faults if all that it takes is served. -/
theorem readsAs_of_serves {client : Client} (hsound : client.Sound)
    (hnone : client.wire.threats = []) {name : String} {content : Bytes}
    (h : d.ReadsIn client.table name content)
    (hcatalog : client.backend.Serves d.volume.catalogKey)
    (hblocks : d.volume.lengthIn name client.table = .ok (some 0) ∨
      client.backend.Serves d.volume.blocksKey) :
    d.ReadsAs client name content := by
  obtain ⟨reader, last, hinput, hread⟩ := h
  rcases hblocks with hzero | hblocks
  · obtain ⟨hclosed, length, file, hlength, hfile, rfl⟩ := inputIn_eq_ok_iff.1 hinput
    obtain rfl : length = 0 := by simpa [hzero] using hlength.symm
    obtain ⟨middle, hentry, hlater, hstore⟩ :=
      (d.volume.reads_entry name).steady hsound ⟨hnone, by simpa using hcatalog⟩
    obtain ⟨after, hok, -⟩ := (d.volume.reads_load_empty name).steady (hlater.sound hsound)
      ⟨List.subset_nil.1 (hnone ▸ hlater.threats), by simp⟩
    rw [hlater.table hstore, hfile] at hok
    refine ⟨Reader.new name file, after, last, ?_, hread⟩
    simp [openInput, ensureOpen, hclosed, hentry, hzero, hok, bind, EStateM.bind, pure, EStateM.pure]
  · have hserves : ∀ key ∈ d.volume.keys, client.backend.Serves key := by
      intro key hmem
      simp only [Volume.keys, List.mem_cons, List.not_mem_nil, or_false] at hmem
      rcases hmem with rfl | rfl
      · exact hcatalog
      · exact hblocks
    exact readsAs_of_steady hsound ⟨hnone, hserves⟩ ⟨reader, last, hinput, hread⟩

end Directory

end BlockDir
