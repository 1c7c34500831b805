import BlockDir.Directory.Basic
import BlockDir.Proofs.Backend.Mutating

/-!
# What operations on files do to tables

For each operation of a volume and of a directory, the function of the tables that it computes: what
is found, for one that reads, and the plan, for one that mutates. Each is put together as the
operation is, with the tables in place of the client.
-/

namespace BlockDir

open Client

namespace Volume

variable (v : Volume)

/-- The keys of the two tables. -/
def keys : List Bytes := [v.catalogKey, v.blocksKey]

theorem catalogKey_mem : v.catalogKey ∈ v.keys := List.mem_cons_self

theorem blocksKey_mem : v.blocksKey ∈ v.keys := List.mem_cons_of_mem _ List.mem_cons_self

/-- The catalog entry of a file. -/
def entryIn (name : String) (tables : Bytes → Table) : Option Bytes :=
  (tables v.catalogKey)[Utf8.encode name]?

/-- The stored form of one block of a file. -/
def blockIn (name : String) (index : Nat) (tables : Bytes → Table) : Option Bytes :=
  (tables v.blocksKey)[Layout.blockKey name index]?

/-- The catalogued length of a file. -/
def lengthIn (name : String) (tables : Bytes → Table) : Except Error (Option Nat) := do
  match v.entryIn name tables with
  | some stored => return some (← Layout.decodeLength name stored)
  | none => return none

/-- The stored forms of all blocks of a file of a given length. -/
def storedIn (name : String) (length : Nat) (tables : Bytes → Table) : Except Error (List Bytes) := do
  let count ← v.storedCount name length
  assemble name length count
    (Fetched.ofSlots ((List.range count).map fun index => some (v.blockIn name index tables)))

/-- A file of a given length. -/
def loadedIn (name : String) (length : Nat) (tables : Bytes → Table) : Except Error LoadedFile := do
  let stored ← v.storedIn name length tables
  let blocks ← v.decodeBlocks name length stored
  return ⟨blocks.toArray, length, v.blockSize⟩

theorem reads_contains (name : String) :
    Reads v.keys (v.contains name) fun tables =>
      .ok (decide (Utf8.encode name ∈ tables v.catalogKey)) :=
  reads_hasField v.catalogKey_mem _

theorem reads_entry (name : String) :
    Reads [v.catalogKey] (v.length? name) (v.lengthIn name) := by
  refine (reads_getField List.mem_cons_self _).bind (g := fun found _ => do
    match found with
    | some stored => return some (← Layout.decodeLength name stored)
    | none => return none) fun found => ?_
  cases found with
  | none => exact reads_pure none
  | some stored => exact (reads_give _).bind fun length => reads_pure (some length)

theorem reads_length? (name : String) : Reads v.keys (v.length? name) (v.lengthIn name) :=
  (v.reads_entry name).mono (by simp [keys])

theorem reads_length (name : String) :
    Reads v.keys (v.length name) fun tables => do return (← v.lengthIn name tables).getD 0 :=
  (v.reads_length? name).bind fun length => reads_pure (length.getD 0)

theorem reads_names :
    Reads v.keys v.names fun tables => .ok ((tables v.catalogKey).keys.map Utf8.lossy) :=
  (reads_listFields v.catalogKey_mem).bind fun fields => reads_pure (fields.map Utf8.lossy)

/-- A file is put together from what the table says of its blocks. If it has any and something comes
between, its blocks are lost. -/
theorem assemble_fetched (name : String) (length count : Nat) {client : Client}
    (hsound : client.Sound) (hovert : client.wire.Suffers Fault.Overt) :
    let act : ClientM (List Bytes) := do
      let fields := (List.range count).map (Layout.blockKey name)
      give (assemble name length count (← Client.fetch v.blocksKey fields v.syncInterval))
    ∃ after, client.Unwritten after ∧
      ((count = 0 ∨ ¬ client.Hindered v.blocksKey after) ∧ act client =
          give (assemble name length count (Fetched.ofSlots ((List.range count).map fun index =>
            some (v.blockIn name index client.table)))) after ∨
        0 < count ∧ client.Hindered v.blocksKey after ∧
          ∃ failed, act client = .error (.link (.lostBlocks name failed count)) after) := by
  intro act
  let fields := (List.range count).map (Layout.blockKey name)
  obtain ⟨slots, after, hok, hunwritten, hfound, hgap⟩ :=
    fetch_slots v.blocksKey fields v.syncInterval hsound hovert
  have hact : act client = give (assemble name length count (Fetched.ofSlots slots)) after := by
    simp [act, fields, bind, EStateM.bind, hok]
  refine ⟨after, hunwritten, ?_⟩
  by_cases hclear : count = 0 ∨ ¬ client.Hindered v.blocksKey after
  · refine .inl ⟨hclear, ?_⟩
    have hslots : slots = fields.map fun field => some (client.table v.blocksKey)[field]? := by
      rcases hclear with rfl | hclear
      · exact List.forall₂_nil_right_iff.1 hfound.each
      · exact hfound.whole hclear
    rw [hact, hslots, List.map_map]
    rfl
  · obtain ⟨hcount, hhindered⟩ := not_or.1 hclear
    have hhindered := not_not.1 hhindered
    have hsome : fields ≠ [] := by simpa [fields] using hcount
    have hcomplete : (Fetched.ofSlots slots).isComplete = false := by
      rw [Bool.eq_false_iff, ne_eq, Fetched.isComplete, List.isEmpty_iff,
        Fetched.failed_ofSlots_eq_nil_iff, not_not]
      exact hgap hsome hhindered
    refine .inr ⟨Nat.pos_of_ne_zero hcount, hhindered, (Fetched.ofSlots slots).failed, ?_⟩
    simp [hact, assemble, hcomplete]

/-- A file is put together from all blocks or not at all: a read that lost some of them fails. The
block table is needed only if there are blocks. -/
theorem reads_blocks {keys : List Bytes} (name : String) (length count : Nat)
    (hkeys : count = 0 ∨ v.blocksKey ∈ keys) :
    Reads keys (do
        let fields := (List.range count).map (Layout.blockKey name)
        give (assemble name length count (← Client.fetch v.blocksKey fields v.syncInterval)))
      fun tables => assemble name length count (Fetched.ofSlots
        ((List.range count).map fun index => some (v.blockIn name index tables))) := by
  intro client hsound htrue
  obtain ⟨after, hunwritten, ⟨-, hok⟩ | ⟨hcount, hhindered, failed, herror⟩⟩ :=
    v.assemble_fetched name length count hsound htrue.overt
  · exact ⟨after, hunwritten.toLater, hunwritten.stores, .inl hok⟩
  · have hkey := hkeys.resolve_left (Nat.ne_of_gt hcount)
    exact ⟨after, hunwritten.toLater, hunwritten.stores,
      .inr ⟨hhindered.not_steady hkey, _, herror⟩⟩

theorem reads_loadStored (name : String) (length : Nat) :
    Reads v.keys (v.loadStored name length) (v.storedIn name length) :=
  (reads_give (v.storedCount name length)).bind fun count =>
    v.reads_blocks name length count (.inr v.blocksKey_mem)

theorem reads_load (name : String) (length : Nat) :
    Reads v.keys (v.load name length) (v.loadedIn name length) :=
  (v.reads_loadStored name length).bind fun stored =>
    (reads_give (v.decodeBlocks name length stored)).bind fun blocks =>
      reads_pure (LoadedFile.mk blocks.toArray length v.blockSize)

/-- The plan of saving a file. -/
def savePlan (name : String) (blocks : List Bytes) (length : Nat) : Plan Unit := fun tables => do
  let count ← Layout.countBlocks length v.blockSize
  if blocks.length < count then
    throw (.argument (.tooFewBlocks name length count blocks.length))
  let previous ← v.lengthIn name tables
  let stale ← v.staleCount name previous
  let stored ← v.encodeBlocks length count blocks
  return ((), v.saveBatch name stored length stale)

/-- The plan of removing a file of a given length. -/
def erasePlan (name : String) (length : Nat) : Plan Unit := fun _ => do
  let count ← v.storedCount name length
  return ((), v.deleteBatch name count)

/-- The plan of deleting a file. -/
def deletePlan (name : String) : Plan Bool := fun tables => do
  match ← v.lengthIn name tables with
  | none => return (false, [])
  | some length =>
    let ((), batch) ← v.erasePlan name length tables
    return (true, batch)

/-- The plan of moving a file, given the stored forms of its blocks. -/
def renamePlan (source dest : String) (stored : List Bytes) (length : Nat) : Plan Unit :=
  fun tables => do
    if source = dest then
      return ((), [])
    else
      let count ← v.storedCount source length
      let previous ← v.lengthIn dest tables
      let stale ← v.staleCount dest previous
      if stored.length ≠ count then
        throw (.argument (.blockCount dest count stored.length))
      return ((), v.renameBatch source dest stored length stale)

variable {v}

theorem key_of_mem_saveBatch {name : String} {stored : List Bytes} {length stale : Nat} {w : Write}
    (h : w ∈ v.saveBatch name stored length stale) : w.key ∈ v.keys := by
  rw [saveBatch, List.mem_append, List.mem_append] at h
  obtain (h | h) | h := h
  · obtain ⟨p, -, rfl⟩ := List.mem_map.1 h
    exact v.blocksKey_mem
  · rw [Batch.mem_set h]
    exact v.catalogKey_mem
  · rw [Batch.mem_delete h]
    exact v.blocksKey_mem

theorem key_of_mem_deleteBatch {name : String} {count : Nat} {w : Write}
    (h : w ∈ v.deleteBatch name count) : w.key ∈ v.keys := by
  rw [deleteBatch, List.mem_append] at h
  rcases h with h | h
  · rw [Batch.mem_delete h]
    exact v.catalogKey_mem
  · rw [Batch.mem_delete h]
    exact v.blocksKey_mem

theorem saveBatch_ne_nil (name : String) (stored : List Bytes) (length stale : Nat) :
    v.saveBatch name stored length stale ≠ [] := by
  simp [saveBatch, lengthWrite, Batch.set]

theorem deleteBatch_ne_nil (name : String) (count : Nat) : v.deleteBatch name count ≠ [] := by
  simp [deleteBatch, entryRemoval, Batch.delete]

theorem key_of_mem_renameBatch {source dest : String} {stored : List Bytes} {length stale : Nat}
    {w : Write} (h : w ∈ v.renameBatch source dest stored length stale) : w.key ∈ v.keys := by
  rw [renameBatch, List.mem_append] at h
  rcases h with h | h
  · exact key_of_mem_saveBatch h
  · exact key_of_mem_deleteBatch h

theorem renameBatch_ne_nil (source dest : String) (stored : List Bytes) (length stale : Nat) :
    v.renameBatch source dest stored length stale ≠ [] := by
  simp [renameBatch, saveBatch_ne_nil]

variable (v)

theorem mutates_save (name : String) (blocks : List Bytes) (length : Nat) :
    Mutates v.keys (v.save name blocks length) (v.savePlan name blocks length) := by
  refine (reads_give (Layout.countBlocks length v.blockSize)).mutates (p := fun count tables => do
    if blocks.length < count then
      throw (.argument (.tooFewBlocks name length count blocks.length))
    let previous ← v.lengthIn name tables
    let stale ← v.staleCount name previous
    let stored ← v.encodeBlocks length count blocks
    return ((), v.saveBatch name stored length stale)) fun count => ?_
  by_cases hfew : blocks.length < count
  · simp only [if_pos hfew]
    exact mutates_throw _
  · simp only [if_neg hfew]
    refine (v.reads_length? name).mutates fun previous => ?_
    refine (reads_give (v.staleCount name previous)).mutates fun stale => ?_
    refine (reads_give (v.encodeBlocks length count blocks)).mutates fun stored => ?_
    exact mutates_commit (saveBatch_ne_nil _ _ _ _) (fun _ => key_of_mem_saveBatch) _

theorem mutates_erase (name : String) (length : Nat) :
    Mutates v.keys (v.erase name length) (v.erasePlan name length) := by
  refine (reads_give (v.storedCount name length)).mutates fun count => ?_
  exact mutates_commit (deleteBatch_ne_nil _ _) (fun _ => key_of_mem_deleteBatch) _

theorem mutates_delete (name : String) :
    Mutates v.keys (v.delete name) (v.deletePlan name) := by
  refine (v.reads_length? name).mutates (p := fun previous tables => do
    match previous with
    | none => return (false, [])
    | some length =>
      let ((), batch) ← v.erasePlan name length tables
      return (true, batch)) fun previous => ?_
  cases previous with
  | none => exact mutates_pure false
  | some length => exact (v.mutates_erase name length).map fun _ => true

theorem mutates_rename (source dest : String) (stored : List Bytes) (length : Nat) :
    Mutates v.keys (v.rename source dest stored length) (v.renamePlan source dest stored length) := by
  by_cases hsame : source = dest
  · have hplan : v.renamePlan source dest stored length = fun _ => .ok ((), []) := by
      funext tables
      simp [renamePlan, hsame, pure, Except.pure]
    rw [hplan, rename, if_pos hsame]
    exact mutates_pure ()
  · have hplan : v.renamePlan source dest stored length = fun tables => do
        let count ← v.storedCount source length
        let previous ← v.lengthIn dest tables
        let stale ← v.staleCount dest previous
        if stored.length ≠ count then
          throw (.argument (.blockCount dest count stored.length))
        return ((), v.renameBatch source dest stored length stale) := by
      funext tables
      simp [renamePlan, hsame]
    rw [hplan, rename, if_neg hsame]
    refine (reads_give (v.storedCount source length)).mutates fun count => ?_
    refine (v.reads_length? dest).mutates fun previous => ?_
    refine (reads_give (v.staleCount dest previous)).mutates fun stale => ?_
    by_cases hcount : stored.length ≠ count
    · simp only [if_pos hcount]
      exact mutates_throw _
    · simp only [if_neg hcount]
      exact mutates_commit (renameBatch_ne_nil _ _ _ _ _) (fun _ => key_of_mem_renameBatch) _

end Volume

namespace Directory

variable (d : Directory)

/-- The cursor at the start of a file. -/
def inputIn (name : String) (tables : Bytes → Table) : Except Error Reader := do
  d.ensureOpen "open_input"
  match ← d.volume.lengthIn name tables with
  | none => throw (.missing (.input name))
  | some length => return Reader.new name (← d.volume.loadedIn name length tables)

/-- The names of all files, ascending. -/
def namesIn (tables : Bytes → Table) : Except Error (List String) := do
  d.ensureOpen "list_all"
  return ((tables d.volume.catalogKey).keys.map Utf8.lossy).mergeSort fun a b => compare a b != .gt

/-- The plan of deleting a file, if it is there. -/
def deleteFilePlan (name : String) : Plan Unit := fun tables => do
  d.ensureOpen "delete_file"
  let (_, batch) ← d.volume.deletePlan name tables
  return ((), batch)

/-- The plan of giving a file another name. -/
def renameFilePlan (source dest : String) : Plan Unit := fun tables => do
  d.ensureOpen "rename_file"
  match ← d.volume.lengthIn source tables with
  | none => throw (.missing (.renamed source dest))
  | some length =>
    let stored ← d.volume.storedIn source length tables
    d.volume.renamePlan source dest stored length tables

/-- The plan of storing the file of an output. -/
def storePlan (output : Output) : Plan Unit := fun tables => do
  d.ensureOpen "close output"
  d.volume.savePlan output.name output.blocks.toList output.position tables

theorem reads_openInput (name : String) :
    Reads d.volume.keys (d.openInput name) (d.inputIn name) := by
  refine (reads_give (d.ensureOpen "open_input")).bind fun _ => ?_
  refine (d.volume.reads_length? name).bind (g := fun found tables => do
    match found with
    | none => throw (.missing (.input name))
    | some length => return Reader.new name (← d.volume.loadedIn name length tables)) fun found => ?_
  cases found with
  | none => exact reads_throw _
  | some length =>
    exact (d.volume.reads_load name length).bind fun file => reads_pure (Reader.new name file)

theorem reads_list : Reads d.volume.keys d.list d.namesIn := by
  refine (reads_give (d.ensureOpen "list_all")).bind fun _ => ?_
  exact d.volume.reads_names.bind fun names =>
    reads_pure (names.mergeSort fun a b => compare a b != .gt)

theorem reads_fileExists (name : String) :
    Reads d.volume.keys (d.fileExists name) fun tables => do
      d.ensureOpen "file_exists"
      return decide (Utf8.encode name ∈ tables d.volume.catalogKey) :=
  (reads_give (d.ensureOpen "file_exists")).bind fun _ => d.volume.reads_contains name

theorem reads_fileLength (name : String) :
    Reads d.volume.keys (d.fileLength name) fun tables => do
      d.ensureOpen "file_length"
      return (← d.volume.lengthIn name tables).getD 0 :=
  (reads_give (d.ensureOpen "file_length")).bind fun _ => d.volume.reads_length name

theorem mutates_deleteFile (name : String) :
    Mutates d.volume.keys (d.deleteFile name) (d.deleteFilePlan name) :=
  (reads_give (d.ensureOpen "delete_file")).mutates fun _ =>
    (d.volume.mutates_delete name).map fun _ => ()

theorem mutates_renameFile (source dest : String) :
    Mutates d.volume.keys (d.renameFile source dest) (d.renameFilePlan source dest) := by
  refine (reads_give (d.ensureOpen "rename_file")).mutates fun _ => ?_
  refine (d.volume.reads_length? source).mutates (p := fun found tables => do
    match found with
    | none => throw (.missing (.renamed source dest))
    | some length =>
      let stored ← d.volume.storedIn source length tables
      d.volume.renamePlan source dest stored length tables) fun found => ?_
  cases found with
  | none => exact mutates_throw _
  | some length =>
    exact (d.volume.reads_loadStored source length).mutates fun stored =>
      d.volume.mutates_rename source dest stored length

theorem mutates_store (output : Output) :
    Mutates d.volume.keys (d.store output) (d.storePlan output) :=
  (reads_give (d.ensureOpen "close output")).mutates fun _ =>
    d.volume.mutates_save output.name output.blocks.toList output.position

end Directory

end BlockDir
