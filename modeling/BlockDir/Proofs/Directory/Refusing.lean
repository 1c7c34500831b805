import BlockDir.Proofs.Directory.Records
import BlockDir.Proofs.Directory.Vetting

/-!
# Damaged lengths

Whatever goes on about a file begins with its length, and what a length says is taken for nothing
without a check: an entry must have the width of a length, and call for no more blocks than a file may
have. So nothing is opened, deleted, moved, moved over or replaced on the word of a damaged entry, and
no write is sent (`Desk.damaged_length_stops`). All routes come down to one: the length is read, and
what follows counts its blocks first (`Volume.Damaged.refused`).
-/

namespace BlockDir

open Client

/-- A result that is missing because of a contradiction in the tables. -/
def Refused {α : Type} (result : Except Error α) : Prop :=
  ∃ e, result = .error e ∧ e.kind = .inconsistent

section

variable {α β : Type}

theorem Refused.bind {result : Except Error α} (h : Refused result) (next : α → Except Error β) :
    Refused (result >>= next) := by
  obtain ⟨e, rfl, hkind⟩ := h
  exact ⟨e, rfl, hkind⟩

theorem Refused.after {result : Except Error α} {a : α} (hok : result = .ok a)
    {next : α → Except Error β} (h : Refused (next a)) : Refused (result >>= next) := by
  subst hok
  exact h

end

namespace Volume

variable {v : Volume} {tables : Bytes → Table} {name : String}

/-- Whether the catalog entry of a file is damaged: it is not as wide as a length, or it calls for
more blocks than a file may have. -/
def Damaged (v : Volume) (name : String) (tables : Bytes → Table) : Prop :=
  ∃ stored, v.entryIn name tables = some stored ∧ (stored.length ≠ Layout.lengthBytes ∨
    Layout.maxBlocks < Layout.blockCount stored.toNat v.blockSize)

/-- What goes on from a damaged length is refused, if it counts the blocks first. -/
theorem Damaged.refused (hsize : 0 < v.blockSize) (h : v.Damaged name tables) {α : Type}
    {next : Option Nat → Except Error α}
    (hnext : ∀ length, Refused (v.storedCount name length) → Refused (next (some length))) :
    Refused (v.lengthIn name tables >>= next) := by
  obtain ⟨stored, hentry, hdamage⟩ := h
  by_cases hwidth : stored.length = Layout.lengthBytes
  · have hlength : v.lengthIn name tables = .ok (some stored.toNat) :=
      lengthIn_eq_some_iff.2 ⟨stored, hentry, hwidth, rfl⟩
    have hmany := hdamage.resolve_left (not_not.2 hwidth)
    refine Refused.after hlength (hnext _ ?_)
    rw [storedCount, Layout.checkedCount_of_pos hsize]
    exact ⟨_, if_pos hmany, rfl⟩
  · refine Refused.bind ?_ next
    rw [lengthIn, hentry]
    exact Refused.bind ⟨_, if_neg hwidth, rfl⟩ _

/-- Saving over a damaged length is refused, if there are blocks enough. -/
theorem Damaged.refused_save (hsize : 0 < v.blockSize) (h : v.Damaged name tables) {length : Nat}
    {blocks : List Bytes} (henough : Layout.blockCount length v.blockSize ≤ blocks.length) :
    Refused (v.savePlan name blocks length tables) := by
  refine Refused.after (Layout.countBlocks_of_pos hsize length) ?_
  simp only [Nat.not_lt.2 henough, if_false]
  exact h.refused hsize fun _ hcounted => hcounted.bind _

theorem Damaged.refused_delete (hsize : 0 < v.blockSize) (h : v.Damaged name tables) :
    Refused (v.deletePlan name tables) :=
  h.refused hsize fun _ hcounted => (hcounted.bind _).bind _

/-- Moving a file over a damaged length is refused, once its own blocks were counted. -/
theorem Damaged.refused_rename (hsize : 0 < v.blockSize) (h : v.Damaged name tables)
    {source : String} (hne : source ≠ name) {stored : List Bytes} {length : Nat}
    (hcount : v.storedCount source length = .ok stored.length) :
    Refused (v.renamePlan source name stored length tables) := by
  rw [renamePlan, if_neg hne]
  exact Refused.after hcount (h.refused hsize fun _ hcounted => hcounted.bind _)

end Volume

namespace Directory

variable {d : Directory} {tables : Bytes → Table} {name : String}

theorem ensureOpen_of_open (hopen : d.closed = false) (operation : String) :
    d.ensureOpen operation = .ok () := by
  simp [ensureOpen, hopen]

variable (hopen : d.closed = false) (hsize : 0 < d.volume.blockSize)
  (h : d.volume.Damaged name tables)

include hopen hsize h

theorem refused_openInput : Refused (d.inputIn name tables) :=
  Refused.after (ensureOpen_of_open hopen _) <| h.refused hsize fun _ hcounted =>
    ((hcounted.bind _).bind _).bind _

theorem refused_deleteFile : Refused (d.deleteFilePlan name tables) :=
  Refused.after (ensureOpen_of_open hopen _) ((h.refused_delete hsize).bind _)

theorem refused_renameFile (dest : String) : Refused (d.renameFilePlan name dest tables) :=
  Refused.after (ensureOpen_of_open hopen _) <| h.refused hsize fun _ hcounted =>
    (hcounted.bind _).bind _

theorem refused_renameFile_over {source : String} {reader : Reader}
    (hreads : d.inputIn source tables = .ok reader) :
    Refused (d.renameFilePlan source name tables) := by
  obtain ⟨-, length, file, hlength, hloaded, -⟩ := inputIn_eq_ok_iff.1 hreads
  obtain ⟨stored, blocks, hstored, -, -⟩ := Volume.loadedIn_eq_ok_iff.1 hloaded
  obtain ⟨hcount, -⟩ := Volume.storedIn_eq_ok_iff.1 hstored
  have hne : source ≠ name := by
    rintro rfl
    obtain ⟨e, hfails, -⟩ := refused_openInput hopen hsize h
    rw [hreads] at hfails
    cases hfails
  exact Refused.after (ensureOpen_of_open hopen _) <| Refused.after hlength <|
    Refused.after hstored <| h.refused_rename hsize hne hcount

theorem refused_store (writes : List Bytes) :
    Refused (d.storePlan (d.outputOf name writes) tables) := by
  have hpos : 0 < d.config.blockSize := hsize
  obtain ⟨hname, hblock, hcollected⟩ :=
    Output.collected_written name hpos d.config.checksum writes
  have hdamaged : d.volume.Damaged (d.outputOf name writes).name tables := hname.symm ▸ h
  refine Refused.after (ensureOpen_of_open hopen _) (hdamaged.refused_save hsize ?_)
  rw [outputOf, hcollected.position, hcollected.blocks, hblock, length_chunks hpos]
  exact Nat.le_refl _

end Directory

namespace Desk

/-- Whether a call of a directory reports a contradiction in the tables, and has sent no write. -/
def Refuses {α : Type} (desk : Desk) (act : DeskM α) : Prop :=
  ∃ e after, act desk = .error e after ∧ e.kind = .inconsistent ∧
    desk.client.wire.Untouched after.client.wire

section

variable {desk : Desk} (hsound : desk.client.Sound)
  (hsteady : desk.client.Steady desk.directory.volume.keys)

include hsound hsteady

theorem refuses_mutation {m : Mutation}
    (h : Refused (m.plan desk.directory desk.client.table)) : desk.Refuses m.run := by
  obtain ⟨e, hplan, hkind⟩ := h
  obtain ⟨hanswer, -, -, -⟩ := m.run_steady hsound hsteady
  rw [Plan.answer, hplan] at hanswer
  cases hrun : m.run desk with
  | ok done after =>
    rw [hrun] at hanswer
    cases hanswer
  | error e' after =>
    rw [hrun] at hanswer
    obtain rfl := Except.error.inj hanswer
    have hbears : desk.client.Bears Fault.Severs := Wire.suffers_of_threats_nil hsteady.threats _
    refine ⟨e', after, hrun, hkind, m.untouched_of_error hbears hrun ?_⟩
    rintro (hsevered | hsevered) <;> rw [hkind] at hsevered <;> cases hsevered

theorem refuses_openInput {name : String}
    (h : Refused (desk.directory.inputIn name desk.client.table)) :
    desk.Refuses (onClient (·.openInput name)) := by
  obtain ⟨e, hinput, hkind⟩ := h
  obtain ⟨after, hopen, -, -⟩ := (desk.directory.reads_openInput name).steady hsound hsteady
  have htraces : Traces Client.wire (fun _ => False) (desk.directory.openInput name) :=
    desk.directory.traces_openInput name
  have htells := htraces desk.client
  rw [hopen, hinput] at htells
  refine ⟨e, ⟨desk.directory, after⟩, ?_, hkind, htells.untouched⟩
  rw [onClient, hopen, hinput]
  rfl

/-- Damaged lengths stop every mutation before it starts. Through whatever backend, without faults: if
the entry of a file is damaged, then opening it, deleting it, moving it anywhere, moving a readable
file over it and closing an output of its name all report an inconsistency, and send no write. -/
theorem damaged_length_stops (hopen : desk.directory.closed = false)
    (hvalid : desk.directory.config.validate = .ok ()) {name : String}
    (hdamaged : desk.directory.volume.Damaged name desk.client.table) :
    desk.Refuses (onClient (·.openInput name)) ∧
    desk.Refuses (Mutation.deleteFile name).run ∧
    (∀ dest, desk.Refuses (Mutation.renameFile name dest).run) ∧
    (∀ source reader, outcome (onClient (·.openInput source) desk) = .ok reader →
      desk.Refuses (Mutation.renameFile source name).run) ∧
    ∀ writes, desk.Refuses (Mutation.closeOutput (desk.directory.outputOf name writes)).run := by
  have hsize : 0 < desk.directory.volume.blockSize := (Config.validate_eq_ok_iff.1 hvalid).1
  refine ⟨?_, ?_, fun dest => ?_, fun source reader hreads => ?_, fun writes => ?_⟩
  · exact refuses_openInput hsound hsteady (Directory.refused_openInput hopen hsize hdamaged)
  · exact refuses_mutation hsound hsteady (Directory.refused_deleteFile hopen hsize hdamaged)
  · exact refuses_mutation hsound hsteady (Directory.refused_renameFile hopen hsize hdamaged dest)
  · obtain ⟨after, hinput, -, -⟩ := (desk.directory.reads_openInput source).steady hsound hsteady
    have hfound : desk.directory.inputIn source desk.client.table = .ok reader := by
      rw [onClient, hinput] at hreads
      cases hresult : desk.directory.inputIn source desk.client.table with
      | error e =>
        rw [hresult] at hreads
        cases hreads
      | ok found =>
        rw [hresult] at hreads
        exact hreads
    exact refuses_mutation hsound hsteady
      (Directory.refused_renameFile_over hopen hsize hdamaged hfound)
  · exact refuses_mutation hsound hsteady (Directory.refused_store hopen hsize hdamaged writes)

end

/-- On a cluster that has one entry too narrow and one too large, neither file is deleted, nor is a
readable file moved over them. -/
theorem damaged_length_stops_both :
    let d : Directory := ⟨{ Config.standard with blockSize := 4 }, 0, [], false⟩
    let v := d.volume
    let store := ((((∅ : Store).put v.catalogKey (Utf8.encode "narrow") [1, 2, 3]).put
      v.catalogKey (Utf8.encode "large") (List.replicate 8 255)).put
      v.catalogKey (Utf8.encode "sound") (Layout.encodeLength 2)).put
      v.blocksKey (Layout.blockKey "sound" 0) [1, 2]
    let desk : Desk := ⟨d, ⟨.cluster #v[⟨0, 0, true⟩] false, Wire.new.setStore 0 store, none⟩⟩
    (desk.Refuses (Mutation.deleteFile "narrow").run ∧
      desk.Refuses (Mutation.renameFile "sound" "narrow").run) ∧
    desk.Refuses (Mutation.deleteFile "large").run ∧
      desk.Refuses (Mutation.renameFile "sound" "large").run := by
  intro d v store desk
  have hsound : desk.client.Sound := by
    refine ⟨fun _ slot => ?_, rfl⟩
    fin_cases slot
    rfl
  have hsteady : desk.client.Steady v.keys := ⟨rfl, fun _ _ => rfl⟩
  have hvalid : desk.directory.config.validate = .ok () := rfl
  have hnarrow : v.Damaged "narrow" desk.client.table :=
    ⟨[1, 2, 3], by decide +kernel, .inl (by decide)⟩
  have hlarge : v.Damaged "large" desk.client.table :=
    ⟨List.replicate 8 255, by decide +kernel, .inr (by decide)⟩
  obtain ⟨-, hdelete, -, hover, -⟩ := damaged_length_stops hsound hsteady rfl hvalid hnarrow
  obtain ⟨-, hdelete', -, hover', -⟩ := damaged_length_stops hsound hsteady rfl hvalid hlarge
  have hopens : (outcome (onClient (·.openInput "sound") desk)).isOk := by decide +kernel
  cases hreads : outcome (onClient (·.openInput "sound") desk) with
  | error e =>
    rw [hreads] at hopens
    cases hopens
  | ok reader =>
    exact ⟨⟨hdelete, hover "sound" reader hreads⟩, hdelete', hover' "sound" reader hreads⟩

end Desk

end BlockDir
