import BlockDir.Directory.Consistency
import BlockDir.Proofs.Backend.Safety
import BlockDir.Proofs.Layout.Blocks
import BlockDir.Proofs.Volume.Plans

/-!
# Directories are safe

With blocks of some size, whatever stands in the two tables, no work on a volume or a directory fails
but with a foreseen error. What stands there is taken for nothing without a check: a length must have
its width and call for few enough blocks, and every block must be there and be long enough.
-/

namespace BlockDir

/-- Whether the links of a client report only foreseen errors. -/
abbrev Client.Fine (client : Client) : Prop := client.Bears Fault.Foreseen

namespace Layout

theorem sane_countBlocks {size : Nat} (hsize : 0 < size) (length : Nat) :
    Sane Error.Foreseen (countBlocks length size) := by
  rw [countBlocks_of_pos hsize]
  exact sane_ok _

theorem sane_checkedCount (name : String) {size : Nat} (hsize : 0 < size) (length : Nat) :
    Sane Error.Foreseen (checkedCount name length size) := by
  rw [checkedCount_of_pos hsize]
  split
  · exact sane_error nofun
  · exact sane_ok _

theorem sane_decodeLength (name : String) (stored : Bytes) :
    Sane Error.Foreseen (decodeLength name stored) := by
  unfold decodeLength
  split
  · exact sane_ok _
  · exact sane_error nofun

end Layout

theorem Codec.sane_decode (codec : Codec) (stored : Bytes) :
    Sane Error.Foreseen (codec.decode stored) := by
  cases codec with
  | plain => exact sane_ok _
  | snappy =>
    rw [decode]
    cases Snappy.decode stored with
    | ok block => exact sane_ok block
    | error e => exact sane_error nofun

theorem Codec.sane_encode (codec : Codec) (block : Bytes) :
    Sane Error.Foreseen (codec.encode block) := by
  cases codec with
  | plain => exact sane_ok _
  | snappy =>
    rw [encode, encodeWith]
    split
    · exact sane_error nofun
    · exact sane_ok _

namespace Volume

variable {v : Volume} (hsize : 0 < v.blockSize)

theorem sane_assemble (name : String) (length count : Nat) (fetched : Fetched) :
    Sane Error.Foreseen (assemble name length count fetched) := by
  unfold assemble
  split
  · exact sane_error nofun
  · split
    · exact sane_error nofun
    · dsimp only
      split
      · exact sane_ok _
      · exact sane_error nofun

theorem sane_decodeBlock (v : Volume) (name : String) (length index : Nat) (stored : Bytes) :
    Sane Error.Foreseen (v.decodeBlock name length index stored) := by
  have hdecode := v.codec.sane_decode stored
  unfold decodeBlock
  cases hresult : v.codec.decode stored with
  | error e => exact sane_error (hdecode e hresult)
  | ok block =>
    dsimp only
    split
    · exact sane_error nofun
    · exact sane_ok _

theorem sane_decodeBlocks (v : Volume) (name : String) (length : Nat) (stored : List Bytes) :
    Sane Error.Foreseen (v.decodeBlocks name length stored) :=
  sane_mapM (fun (value, index) => v.sane_decodeBlock name length index value) stored.zipIdx

theorem sane_encodeBlocks (v : Volume) (length count : Nat) (blocks : List Bytes) :
    Sane Error.Foreseen (v.encodeBlocks length count blocks) :=
  sane_mapM (fun _ => v.codec.sane_encode _) _

theorem safe_length? (v : Volume) (name : String) :
    Safe Error.Foreseen Client.Fine (v.length? name) := by
  refine (Client.safe_getField reckoned_foreseen v.catalogKey (Utf8.encode name)).bind fun found => ?_
  cases found with
  | none => exact safe_pure none
  | some stored =>
    exact (safe_give (Layout.sane_decodeLength name stored)).bind fun length =>
      safe_pure (some length)

theorem safe_length (v : Volume) (name : String) : Safe Error.Foreseen Client.Fine (v.length name) :=
  (v.safe_length? name).bind fun length => safe_pure (length.getD 0)

theorem safe_names (v : Volume) : Safe Error.Foreseen Client.Fine v.names :=
  (Client.safe_listFields reckoned_foreseen v.catalogKey).bind fun fields =>
    safe_pure (fields.map Utf8.lossy)

theorem safe_storedKeys (v : Volume) : Safe Error.Foreseen Client.Fine v.storedKeys :=
  (Client.safe_listFields reckoned_foreseen v.blocksKey).bind fun fields =>
    safe_pure (fields.filterMap Layout.parseBlockKey)

theorem safe_soundCount (v : Volume) (name : String) :
    Safe Error.Foreseen Client.Fine (v.soundCount name) := by
  intro client hclient
  have hlength := v.safe_length name client hclient
  unfold soundCount
  cases hresult : v.length name client with
  | ok length after =>
    rw [hresult] at hlength
    exact hlength
  | error e after =>
    rw [hresult] at hlength
    dsimp only
    split
    · exact hlength.1
    · exact hlength

theorem safe_examine (v : Volume) (names : List String) (keys : List (String × Nat)) (report : Report) :
    Safe Error.Foreseen Client.Fine (v.examine names keys report) := by
  induction names generalizing keys report with
  | nil => exact safe_pure _
  | cons name rest ih =>
    refine (v.safe_soundCount name).bind fun count => ?_
    cases count with
    | none => exact ih _ _
    | some count => exact ih _ _

theorem safe_check (v : Volume) : Safe Error.Foreseen Client.Fine v.check :=
  v.safe_storedKeys.bind fun keys => v.safe_names.bind fun names =>
    v.safe_examine names keys .empty

section

include hsize

theorem sane_storedCount (name : String) (length : Nat) :
    Sane Error.Foreseen (v.storedCount name length) :=
  Layout.sane_checkedCount name hsize length

theorem sane_staleCount (name : String) (previous : Option Nat) :
    Sane Error.Foreseen (v.staleCount name previous) := by
  cases previous with
  | none => exact sane_ok 0
  | some length => exact sane_storedCount hsize name length

theorem safe_loadStored (name : String) (length : Nat) :
    Safe Error.Foreseen Client.Fine (v.loadStored name length) :=
  (safe_give (sane_storedCount hsize name length)).bind fun count =>
    (Client.safe_fetch reckoned_foreseen v.blocksKey _ v.syncInterval).bind fun fetched =>
      safe_give (sane_assemble name length count fetched)

theorem safe_load (name : String) (length : Nat) :
    Safe Error.Foreseen Client.Fine (v.load name length) :=
  (safe_loadStored hsize name length).bind fun stored =>
    (safe_give (v.sane_decodeBlocks name length stored)).bind fun blocks =>
      safe_pure (⟨blocks.toArray, length, v.blockSize⟩ : LoadedFile)

theorem safe_save (name : String) (blocks : List Bytes) (length : Nat) :
    Safe Error.Foreseen Client.Fine (v.save name blocks length) := by
  refine (safe_give (Layout.sane_countBlocks hsize length)).bind fun count => ?_
  have hsave : Safe Error.Foreseen Client.Fine (do
      let previous ← v.length? name
      let stale ← give (v.staleCount name previous)
      let stored ← give (v.encodeBlocks length count blocks)
      Client.commit (v.saveBatch name stored length stale) v.syncInterval) :=
    (v.safe_length? name).bind fun previous =>
      (safe_give (sane_staleCount hsize name previous)).bind fun _ =>
        (safe_give (v.sane_encodeBlocks length count blocks)).bind fun _ =>
          Client.safe_commit reckoned_foreseen _ _
  by_cases hfew : blocks.length < count
  · simp only [if_pos hfew]
    refine Safe.bind (safe_throw ?_) fun _ => hsave
    exact nofun
  · simp only [if_neg hfew]
    exact (safe_pure ()).bind fun _ => hsave

theorem safe_erase (name : String) (length : Nat) :
    Safe Error.Foreseen Client.Fine (v.erase name length) :=
  (safe_give (sane_storedCount hsize name length)).bind fun _ =>
    Client.safe_commit reckoned_foreseen _ _

theorem safe_delete (name : String) : Safe Error.Foreseen Client.Fine (v.delete name) := by
  refine (v.safe_length? name).bind fun found => ?_
  cases found with
  | none => exact safe_pure false
  | some length => exact (safe_erase hsize name length).bind fun _ => safe_pure true

theorem safe_rename (source dest : String) (stored : List Bytes) (length : Nat) :
    Safe Error.Foreseen Client.Fine (v.rename source dest stored length) := by
  unfold rename
  split
  · exact safe_pure ()
  · refine (safe_give (sane_storedCount hsize source length)).bind fun count => ?_
    refine (v.safe_length? dest).bind fun previous => ?_
    refine (safe_give (sane_staleCount hsize dest previous)).bind fun stale => ?_
    have hcommit : Safe Error.Foreseen Client.Fine
        (Client.commit (v.renameBatch source dest stored length stale) v.syncInterval) :=
      Client.safe_commit reckoned_foreseen _ _
    by_cases hcount : stored.length ≠ count
    · simp only [if_pos hcount]
      refine Safe.bind (safe_throw ?_) fun _ => hcommit
      exact nofun
    · simp only [if_neg hcount]
      exact (safe_pure ()).bind fun _ => hcommit

end

end Volume

namespace Directory

theorem sane_ensureOpen (d : Directory) (operation : String) :
    Sane Error.Foreseen (d.ensureOpen operation) := by
  unfold ensureOpen
  split
  · exact sane_error nofun
  · exact sane_ok ()

variable {d : Directory}

theorem safe_list : Safe Error.Foreseen Client.Fine d.list :=
  (safe_give (d.sane_ensureOpen _)).bind fun _ => d.volume.safe_names.bind fun names =>
    safe_pure (names.mergeSort fun a b => compare a b != .gt)

theorem safe_fileExists (name : String) : Safe Error.Foreseen Client.Fine (d.fileExists name) :=
  (safe_give (d.sane_ensureOpen _)).bind fun _ => Client.safe_hasField reckoned_foreseen _ _

theorem safe_fileLength (name : String) : Safe Error.Foreseen Client.Fine (d.fileLength name) :=
  (safe_give (d.sane_ensureOpen _)).bind fun _ => d.volume.safe_length name

theorem safe_check : Safe Error.Foreseen Client.Fine d.check :=
  (safe_give (d.sane_ensureOpen _)).bind fun _ => d.volume.safe_check

variable (hsize : 0 < d.volume.blockSize)

include hsize

theorem safe_deleteFile (name : String) : Safe Error.Foreseen Client.Fine (d.deleteFile name) :=
  (safe_give (d.sane_ensureOpen _)).bind fun _ =>
    (Volume.safe_delete hsize name).bind fun _ => safe_pure ()

theorem safe_renameFile (source dest : String) :
    Safe Error.Foreseen Client.Fine (d.renameFile source dest) := by
  refine (safe_give (d.sane_ensureOpen _)).bind fun _ => ?_
  refine (d.volume.safe_length? source).bind fun found => ?_
  cases found with
  | none => exact safe_throw nofun
  | some length =>
    exact (Volume.safe_loadStored hsize source length).bind fun stored =>
      Volume.safe_rename hsize source dest stored length

theorem safe_openInput (name : String) : Safe Error.Foreseen Client.Fine (d.openInput name) := by
  refine (safe_give (d.sane_ensureOpen _)).bind fun _ => ?_
  refine (d.volume.safe_length? name).bind fun found => ?_
  cases found with
  | none => exact safe_throw nofun
  | some length =>
    exact (Volume.safe_load hsize name length).bind fun file => safe_pure (Reader.new name file)

theorem safe_store (output : Output) : Safe Error.Foreseen Client.Fine (d.store output) :=
  (safe_give (d.sane_ensureOpen _)).bind fun _ => Volume.safe_save hsize _ _ _

end Directory

namespace Desk

/-- A directory with settings that can be used, whose links report only foreseen errors. -/
structure Fine (desk : Desk) : Prop where
  valid : desk.directory.config.validate = .ok ()
  client : desk.client.Fine

theorem Fine.blockSize_pos {desk : Desk} (h : desk.Fine) : 0 < desk.directory.volume.blockSize :=
  (Config.validate_eq_ok_iff.1 h.valid).1

theorem safe_onClient {α : Type} {act : Directory → ClientM α}
    (h : ∀ d : Directory, 0 < d.volume.blockSize → Safe Error.Foreseen Client.Fine (act d)) :
    Safe Error.Foreseen Fine (onClient act) := by
  intro desk hdesk
  have hact := h desk.directory hdesk.blockSize_pos desk.client hdesk.client
  unfold onClient
  cases hresult : act desk.directory desk.client with
  | ok a after =>
    rw [hresult] at hact
    exact ⟨hdesk.valid, hact⟩
  | error e after =>
    rw [hresult] at hact
    exact ⟨⟨hdesk.valid, hact.1⟩, hact.2⟩

theorem safe_createOutput (name : String) : Safe Error.Foreseen Fine (createOutput name) := by
  intro desk hdesk
  have hopen := desk.directory.sane_ensureOpen "create_output"
  unfold createOutput Directory.createOutput
  cases hresult : desk.directory.ensureOpen "create_output" with
  | error e => exact ⟨hdesk, hopen e hresult⟩
  | ok =>
    dsimp only
    split
    · rename_i heq
      split at heq
      · cases heq
      · cases heq
        exact ⟨hdesk.valid, hdesk.client⟩
    · rename_i heq
      split at heq
      · cases heq
        exact ⟨hdesk, nofun⟩
      · cases heq

theorem safe_dropOutput (output : Output) : Safe Error.Foreseen Fine (dropOutput output) :=
  fun _ hdesk => Fine.mk hdesk.valid hdesk.client

theorem safe_closeOutput (output : Output) : Safe Error.Foreseen Fine (closeOutput output) := by
  intro desk hdesk
  have hstore := Directory.safe_store hdesk.blockSize_pos output desk.client hdesk.client
  unfold closeOutput
  cases hresult : desk.directory.store output desk.client with
  | ok done after =>
    rw [hresult] at hstore
    exact ⟨hdesk.valid, hstore⟩
  | error e after =>
    rw [hresult] at hstore
    exact ⟨⟨hdesk.valid, hstore.1⟩, hstore.2⟩

theorem safe_close : Safe Error.Foreseen Fine close := by
  intro desk hdesk
  unfold close
  split
  · exact hdesk
  · have hclose := Client.safe_close reckoned_foreseen desk.client hdesk.client
    cases hresult : Client.close desk.client with
    | ok done after =>
      rw [hresult] at hclose
      exact ⟨hdesk.valid, hclose⟩
    | error e after =>
      rw [hresult] at hclose
      exact ⟨⟨hdesk.valid, hclose.1⟩, hclose.2⟩

end Desk

end BlockDir
