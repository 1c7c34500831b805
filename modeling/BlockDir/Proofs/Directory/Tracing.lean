import BlockDir.Proofs.Backend.Tracing
import BlockDir.Proofs.Directory.Mutations

/-!
# What the record tells of a directory

Whatever strikes it, a call that reads makes no write, and a mutation makes only writes of batches that
it may commit (`Mutation.Commits`). Which of these it commits is told by what it reads, and that may be
wrong. Nothing is supposed of the backend or of the faults here.
-/

namespace BlockDir

variable {sort : Write → Prop}

namespace Volume

variable (v : Volume)

theorem traces_length? (name : String) : Traces Client.wire sort (v.length? name) := by
  refine (Client.traces_getField v.catalogKey (Utf8.encode name)).bind fun found => ?_
  cases found with
  | none => exact traces_pure none
  | some stored => exact (traces_give _).bind fun length => traces_pure (some length)

theorem traces_loadStored (name : String) (length : Nat) :
    Traces Client.wire sort (v.loadStored name length) :=
  (traces_give (v.storedCount name length)).bind fun _ =>
    (Client.traces_fetch v.blocksKey _ v.syncInterval).bind fun _ => traces_give _

theorem traces_load (name : String) (length : Nat) :
    Traces Client.wire sort (v.load name length) :=
  (v.traces_loadStored name length).bind fun _ => (traces_give _).bind fun _ => traces_pure _

variable {v} {name : String}

theorem traces_save {length : Nat}
    (hsort : ∀ stored stale, ∀ w ∈ v.saveBatch name stored length stale, sort w)
    (blocks : List Bytes) : Traces Client.wire sort (v.save name blocks length) := by
  refine (traces_give (Layout.countBlocks length v.blockSize)).bind fun count => ?_
  have hsave : Traces Client.wire sort (do
      let previous ← v.length? name
      let stale ← give (v.staleCount name previous)
      let stored ← give (v.encodeBlocks length count blocks)
      Client.commit (v.saveBatch name stored length stale) v.syncInterval) :=
    (v.traces_length? name).bind fun previous =>
      (traces_give (v.staleCount name previous)).bind fun stale =>
        (traces_give (v.encodeBlocks length count blocks)).bind fun stored =>
          Client.traces_commit (hsort stored stale) _
  by_cases hfew : blocks.length < count
  · simp only [if_pos hfew]
    exact (traces_throw _).bind fun _ => hsave
  · simp only [if_neg hfew]
    exact (traces_pure ()).bind fun _ => hsave

theorem traces_erase (hsort : ∀ count, ∀ w ∈ v.deleteBatch name count, sort w) (length : Nat) :
    Traces Client.wire sort (v.erase name length) :=
  (traces_give (v.storedCount name length)).bind fun count => Client.traces_commit (hsort count) _

theorem traces_delete (hsort : ∀ count, ∀ w ∈ v.deleteBatch name count, sort w) :
    Traces Client.wire sort (v.delete name) := by
  refine (v.traces_length? name).bind fun found => ?_
  cases found with
  | none => exact traces_pure false
  | some length => exact (traces_erase hsort length).bind fun _ => traces_pure true

theorem traces_rename {source : String} {stored : List Bytes} {length : Nat}
    (hsort : ∀ stale, ∀ w ∈ v.renameBatch source name stored length stale, sort w) :
    Traces Client.wire sort (v.rename source name stored length) := by
  unfold rename
  split
  · exact traces_pure ()
  · refine (traces_give (v.storedCount source length)).bind fun count => ?_
    refine (v.traces_length? name).bind fun previous => ?_
    refine (traces_give (v.staleCount name previous)).bind fun stale => ?_
    have hcommit : Traces Client.wire sort
        (Client.commit (v.renameBatch source name stored length stale) v.syncInterval) :=
      Client.traces_commit (hsort stale) _
    by_cases hcount : stored.length ≠ count
    · simp only [if_pos hcount]
      exact (traces_throw _).bind fun _ => hcommit
    · simp only [if_neg hcount]
      exact (traces_pure ()).bind fun _ => hcommit

end Volume

namespace Directory

variable (d : Directory)

theorem traces_list : Traces Client.wire sort d.list := by
  refine (traces_give (d.ensureOpen "list_all")).bind fun _ => ?_
  have hnames : Traces Client.wire sort d.volume.names :=
    (Client.traces_listFields d.volume.catalogKey).bind fun _ => traces_pure _
  exact hnames.bind fun _ => traces_pure _

theorem traces_fileExists (name : String) : Traces Client.wire sort (d.fileExists name) :=
  (traces_give (d.ensureOpen "file_exists")).bind fun _ => Client.traces_hasField _ _

theorem traces_fileLength (name : String) : Traces Client.wire sort (d.fileLength name) :=
  (traces_give (d.ensureOpen "file_length")).bind fun _ =>
    (d.volume.traces_length? name).bind fun _ => traces_pure _

theorem traces_openInput (name : String) : Traces Client.wire sort (d.openInput name) := by
  refine (traces_give (d.ensureOpen "open_input")).bind fun _ => ?_
  refine (d.volume.traces_length? name).bind fun found => ?_
  cases found with
  | none => exact traces_throw _
  | some length => exact (d.volume.traces_load name length).bind fun _ => traces_pure _

end Directory

namespace Mutation

/-- The batches that a mutation may commit, whatever it reads. -/
inductive Commits (v : Volume) : Mutation → Batch → Prop where
  | closeOutput (output : Output) (stored : List Bytes) (stale : Nat) :
      Commits v (.closeOutput output) (v.saveBatch output.name stored output.position stale)
  | deleteFile (name : String) (count : Nat) : Commits v (.deleteFile name) (v.deleteBatch name count)
  | renameFile (source dest : String) (stored : List Bytes) (length stale : Nat) :
      Commits v (.renameFile source dest) (v.renameBatch source dest stored length stale)
  | save (name : String) (blocks stored : List Bytes) (length stale : Nat) :
      Commits v (.save name blocks length) (v.saveBatch name stored length stale)
  | erase (name : String) (length count : Nat) :
      Commits v (.erase name length) (v.deleteBatch name count)
  | rename (source dest : String) (stored : List Bytes) (length stale : Nat) :
      Commits v (.rename source dest stored length) (v.renameBatch source dest stored length stale)

/-- Whatever strikes a mutation, it makes only writes of batches that it may commit. -/
theorem traces_of_commits {m : Mutation} {d : Directory}
    (hsort : ∀ batch, m.Commits d.volume batch → ∀ w ∈ batch, sort w) :
    Traces Client.wire sort (m.act d) := by
  cases m with
  | closeOutput output =>
    exact (traces_give (d.ensureOpen "close output")).bind fun _ =>
      Volume.traces_save (fun stored stale => hsort _ (.closeOutput output stored stale)) _
  | deleteFile name =>
    exact (traces_give (d.ensureOpen "delete_file")).bind fun _ =>
      (Volume.traces_delete fun count => hsort _ (.deleteFile name count)).bind fun _ => traces_pure ()
  | renameFile source dest =>
    refine (traces_give (d.ensureOpen "rename_file")).bind fun _ => ?_
    refine (d.volume.traces_length? source).bind fun found => ?_
    cases found with
    | none => exact traces_throw _
    | some length =>
      exact (d.volume.traces_loadStored source length).bind fun stored =>
        Volume.traces_rename fun stale => hsort _ (.renameFile source dest stored length stale)
  | save name blocks length =>
    exact Volume.traces_save (fun stored stale => hsort _ (.save name blocks stored length stale)) _
  | erase name length => exact Volume.traces_erase (fun count => hsort _ (.erase name length count)) _
  | rename source dest stored length =>
    exact Volume.traces_rename fun stale => hsort _ (.rename source dest stored length stale)

end Mutation

end BlockDir
