import BlockDir.Proofs.Directory.Files
import BlockDir.Proofs.Directory.Renaming
import BlockDir.Proofs.Volume.Batches
import BlockDir.Proofs.Volume.Cuts

/-!
# Files appear complete

The entry of a file is written after all its blocks, and the blocks cover those that were left under
its name. So a name that is not in the catalog stays out of it until the whole file is there.
-/

namespace BlockDir

open Client

/-- An output of a directory after `writes`. -/
def Directory.outputOf (d : Directory) (name : String) (writes : List Bytes) : Output :=
  .written name d.config.blockSize d.config.checksum writes

namespace Mutation

/-- What a call brings under a name: what was written to the output that it closes, or the content of
the file that it renames, which could be read before. -/
inductive Brings (desk : Desk) : Mutation → String → Bytes → Prop where
  | close (name : String) (writes : List Bytes)
      (small : Layout.blockCount writes.flatten.length desk.directory.config.blockSize ≤
        Layout.maxBlocks) :
      Brings desk (.closeOutput (desk.directory.outputOf name writes)) name writes.flatten
  | rename (source dest : String) (content : Bytes)
      (readable : desk.directory.ReadsAs desk.client.calm source content) :
      Brings desk (.renameFile source dest) dest content

end Mutation

theorem Volume.entryIn_eq_none_iff {v : Volume} {name : String} {tables : Bytes → Table} :
    v.entryIn name tables = none ↔ Utf8.encode name ∉ tables v.catalogKey := by
  rw [Volume.entryIn, Std.ExtTreeMap.mem_iff_isSome_getElem?]
  simp

namespace Directory

variable {d : Directory} {name : String} {content : Bytes}

theorem outputOf_spec (hv : d.volume.Proper) (name : String) (writes : List Bytes) :
    (d.outputOf name writes).name = name ∧
      (d.outputOf name writes).blockSize = d.volume.blockSize ∧
      (d.outputOf name writes).Collected writes.flatten :=
  Output.collected_written name hv.blockSize_pos d.config.checksum writes

/-- What closing an output is planned to commit. -/
theorem storePlan_outputOf_eq_ok (hv : d.volume.Proper) {name : String} {writes : List Bytes}
    {tables : Bytes → Table} {batch : Batch}
    (h : d.storePlan (d.outputOf name writes) tables = .ok ((), batch)) :
    d.closed = false ∧ ∃ stale, batch =
      d.volume.saveBatch name (d.volume.storedForms writes.flatten) writes.flatten.length stale := by
  obtain ⟨hname, hsize, hcollected⟩ := outputOf_spec hv name writes
  obtain ⟨hopen, hsave⟩ := storePlan_eq_ok h
  obtain ⟨stored, previous, stale, -, hstored, -, -, hbatch⟩ := Volume.savePlan_eq_ok hsave
  refine ⟨hopen, stale, ?_⟩
  rw [hcollected.position, hcollected.blocks, hsize, Volume.encodeBlocks_chunks hv] at hstored
  rw [hbatch, hname, hcollected.position, ← Except.ok.inj hstored]

/-- What closing an output commits, if anything. -/
theorem batch_storePlan (hv : d.volume.Proper) (name : String) (writes : List Bytes)
    (tables : Bytes → Table) :
    (d.storePlan (d.outputOf name writes)).batch tables = [] ∨ d.closed = false ∧ ∃ stale,
      (d.storePlan (d.outputOf name writes)).batch tables =
        d.volume.saveBatch name (d.volume.storedForms writes.flatten) writes.flatten.length
          stale := by
  rcases Plan.batch_cases (d.storePlan (d.outputOf name writes)) tables with ⟨⟨⟩, hplan⟩ | hnone
  · exact .inr (storePlan_outputOf_eq_ok hv hplan)
  · exact .inl hnone

/-- Renaming a file to its own name commits nothing. -/
theorem batch_renameFilePlan_same (name : String) (tables : Bytes → Table) :
    (d.renameFilePlan name name).batch tables = [] := by
  rcases Plan.batch_cases (d.renameFilePlan name name) tables with ⟨⟨⟩, hplan⟩ | hnone
  · obtain ⟨-, length, stored, -, -, hrename⟩ := renameFilePlan_eq_ok hplan
    obtain ⟨-, hbatch⟩ | ⟨hne, -⟩ := Volume.renamePlan_eq_ok hrename
    · exact hbatch
    · exact absurd rfl hne
  · exact hnone

variable {tables : Bytes → Table}

/-- A file is read as the content of whose blocks the stored ones are forms. -/
theorem readsIn_iff_blocks (hv : d.volume.Proper) :
    d.ReadsIn tables name content ↔ d.closed = false ∧
      d.volume.lengthIn name tables = .ok (some content.length) ∧ ∃ stored,
        d.volume.storedIn name content.length tables = .ok stored ∧
        d.volume.decodeBlocks name content.length stored =
          .ok (chunks d.volume.blockSize content) := by
  have hpos := hv.blockSize_pos
  have hbytes : ∀ content : Bytes,
      (LoadedFile.ofContent d.volume.blockSize content).bytesAt 0 content.length = .ok content := by
    intro content
    have hall := LoadedFile.bytesAt_ofContent hpos content 0 content.length (by omega)
    simpa using hall
  rw [readsIn_iff]
  constructor
  · rintro ⟨hopen, length, file, hlength, hfile, hread⟩
    obtain ⟨stored, blocks, hstored, hblocks, rfl⟩ := Volume.loadedIn_eq_ok_iff.1 hfile
    obtain ⟨hcount, heach⟩ := Volume.decodeBlocks_eq_ok_iff.1 hblocks
    have hstoredCount := (Volume.storedIn_eq_ok_iff.1 hstored).1
    -- the blocks have the lengths of their places, so they are the blocks of what they make up
    obtain ⟨hflat, hchunks⟩ := eq_chunks_of_lengths hpos
      (hcount.symm.trans (Volume.storedCount_eq_ok hstoredCount).2) fun index block hblock => by
        obtain ⟨hindex, rfl⟩ := List.getElem?_eq_some_iff.1 hblock
        exact Volume.length_of_decodeBlock (heach index (hcount ▸ hindex) hindex)
    have hcontent : content = blocks.flatten := by
      have hall := hbytes blocks.flatten
      rw [LoadedFile.ofContent, hchunks, hflat] at hall
      exact Except.ok.inj (hread.symm.trans hall)
    subst hcontent
    rw [hflat, hchunks]
    exact ⟨hopen, hlength, stored, hstored, hblocks⟩
  · rintro ⟨hopen, hlength, stored, hstored, hblocks⟩
    exact ⟨hopen, _, _, hlength, Volume.loadedIn_eq_ok_iff.2 ⟨stored, _, hstored, hblocks, rfl⟩,
      hbytes content⟩

/-- A content of few enough blocks is read back once it was saved. -/
theorem readsIn_saveBatch (hv : d.volume.Proper) (hopen : d.closed = false)
    (hsmall : Layout.blockCount content.length d.volume.blockSize ≤ Layout.maxBlocks)
    (name : String) (stale : Nat) :
    d.ReadsIn (Batch.onTables
      (d.volume.saveBatch name (d.volume.storedForms content) content.length stale) tables)
      name content := by
  have hfits := Layout.toNat_encodeLength (Volume.short_of_le hv hsmall)
  have hcount : d.volume.storedCount name content.length =
      .ok (d.volume.storedForms content).length := by
    rw [Volume.length_storedForms hv]
    exact Volume.storedCount_of_le hv name hsmall
  obtain ⟨hlength, hstored⟩ := Volume.storedIn_saveBatch hv.keys_ne hfits hcount stale
  exact (readsIn_iff_blocks hv).2
    ⟨hopen, hlength, _, hstored, Volume.decodeBlocks_storedForms hv name content⟩

/-- Wherever the saving of a file that was not there is cut, the file is not there or can be read. -/
theorem absent_or_readsIn_take_saveBatch (hkeys : d.volume.catalogKey ≠ d.volume.blocksKey)
    {stored : List Bytes} {length : Nat}
    (hsaved : ∀ stale, d.ReadsIn
      (Batch.onTables (d.volume.saveBatch name stored length stale) tables) name content)
    (habsent : d.volume.entryIn name tables = none) (stale count : Nat) :
    let after := Batch.onTables ((d.volume.saveBatch name stored length stale).take count) tables
    d.volume.entryIn name after = none ∨ d.ReadsIn after name content := by
  intro after
  obtain ⟨few, htake⟩ | ⟨stale', -, htake⟩ :=
    Volume.take_saveBatch (v := d.volume) name stored length stale count
  · left
    simp only [after, htake, Volume.entryIn_blockWrites hkeys, habsent]
  · right
    simp only [after, htake]
    exact hsaved stale'

end Directory

namespace Mutation

variable {desk : Desk} {m : Mutation} {name : String} {content : Bytes}

/-- What brings a file commits nothing, or it saves the file and then leaves it alone. -/
theorem Brings.batch_cases (h : m.Brings desk name content) (hv : desk.directory.volume.Proper)
    (hsound : desk.client.Sound) :
    let v := desk.directory.volume
    let batch := (m.plan desk.directory).batch desk.client.table
    batch = [] ∨ ∃ stored length stale rest, batch = v.saveBatch name stored length stale ++ rest ∧
      (∀ stale', desk.directory.ReadsIn
        (Batch.onTables (v.saveBatch name stored length stale') desk.client.table) name content) ∧
      ∀ count tables, v.Agree name (Batch.onTables (rest.take count) tables) tables := by
  intro v batch
  cases h with
  | close name writes hsmall =>
    obtain hnone | ⟨hopen, stale, hbatch⟩ :=
      Directory.batch_storePlan hv name writes desk.client.table
    · exact .inl hnone
    · refine .inr ⟨_, _, stale, [], by rw [List.append_nil]; exact hbatch, ?_, ?_⟩
      · exact fun stale' => Directory.readsIn_saveBatch hv hopen hsmall name stale'
      · intro count tables
        rw [List.take_nil]
        exact Volume.agree_of_keys fun _ _ => rfl
  | rename source dest content hreadable =>
    have hread : desk.directory.ReadsIn desk.client.table source content :=
      Directory.readsIn_of_readsAs hsound.calm (desk.client.calm_suffers _) hreadable
    obtain ⟨hopen, length, file, hlength, hfile, hbytes⟩ := Directory.readsIn_iff.1 hread
    obtain ⟨stored, -, hstored, -, -⟩ := Volume.loadedIn_eq_ok_iff.1 hfile
    by_cases hsame : source = name
    · subst hsame
      exact .inl (Directory.batch_renameFilePlan_same source _)
    · obtain hnone | ⟨stale, hbatch⟩ :=
        Directory.batch_renameFilePlan hsame hopen hlength hstored
      · exact .inl hnone
      · refine .inr ⟨stored, length, stale, _, hbatch, ?_, ?_⟩
        · intro stale'
          obtain ⟨hlength', hfile'⟩ :=
            Volume.loadedIn_saved hv.keys_ne name hlength hstored hfile stale'
          exact Directory.readsIn_iff.2 ⟨hopen, length, file, hlength', hfile', hbytes⟩
        · exact Volume.agree_take_deleteBatch hv.keys_ne (Ne.symm hsame) stored.length

/-- Wherever the bringing of a file that was not there is cut, the file is not there or can be
read. -/
theorem Brings.absent_or_readsIn (h : m.Brings desk name content)
    (hv : desk.directory.volume.Proper) (hsound : desk.client.Sound)
    (habsent : desk.directory.volume.entryIn name desk.client.table = none) (count : Nat) :
    let after := Batch.onTables (((m.plan desk.directory).batch desk.client.table).take count)
      desk.client.table
    desk.directory.volume.entryIn name after = none ∨ desk.directory.ReadsIn after name content := by
  intro after
  obtain hnone | ⟨stored, length, stale, rest, hbatch, hsaved, hrest⟩ := h.batch_cases hv hsound
  · left
    simpa only [after, hnone, List.take_nil, Batch.onTables_nil] using habsent
  · rcases Nat.le_total count
      (desk.directory.volume.saveBatch name stored length stale).length with hfew | hmany
    · simp only [after, hbatch, List.take_append_of_le_length hfew]
      exact Directory.absent_or_readsIn_take_saveBatch hv.keys_ne hsaved habsent stale count
    · right
      simp only [after, hbatch, List.take_append, List.take_of_length_le hmany,
        Batch.onTables_append]
      exact Directory.readsIn_of_agree (hrest _ _) (hsaved stale)

/-- Whatever fails when a file is brought under a name that is not in the catalog: in the stores between
any two writes, and in those that are left, the name is not in the catalog or the whole file is read,
by any client that sees them without faults. What was left under the name before does not matter. -/
theorem appears_complete (hvalid : desk.directory.config.validate = .ok ())
    (hsound : desk.client.Sound) (htrue : desk.client.wire.Suffers Fault.Truthful)
    (hbrings : m.Brings desk name content)
    (habsent : Utf8.encode name ∉ desk.client.table desk.directory.volume.catalogKey) :
    (∀ (count : Nat) (observer : Client),
        observer.Sees desk.client.backend.storeOf desk.directory.volume.keys
          ((m.plan desk.directory).storesAt desk.client count) →
        Utf8.encode name ∉ observer.table desk.directory.volume.catalogKey ∨
          desk.directory.ReadsAs observer name content) ∧
      ∃ count, (finalState (m.run desk)).stores =
        (m.plan desk.directory).storesAt desk.client count := by
  have hv : desk.directory.volume.Proper := Volume.proper_ofConfig hvalid
  constructor
  · intro count observer hsees
    have hagree : desk.directory.volume.Agree name observer.table
        (Batch.onTables (((m.plan desk.directory).batch desk.client.table).take count)
          desk.client.table) :=
      Volume.agree_of_keys fun _ hkey => hsees.table_storesAt hkey
    have hnone := Volume.entryIn_eq_none_iff.2 habsent
    rcases hbrings.absent_or_readsIn hv hsound hnone count with hnone' | hread
    · exact .inl (Volume.entryIn_eq_none_iff.1 (hagree.entryIn.trans hnone'))
    · exact .inr (Directory.readsAs_of_steady hsees.sound hsees.steady
        (Directory.readsIn_of_agree hagree hread))
  · obtain ⟨count, hstores, -⟩ := m.stores_cut hsound htrue
    exact ⟨count, hstores⟩

/-- An output that is closed over a cluster, twice. Each time the entry cannot be written, so that the
second time a block is left from the first. -/
theorem appears_complete_leftover :
    let d : Directory := ⟨.standard, 0, [], false⟩
    let backend : Backend := .cluster #v[⟨0, 0, true⟩, ⟨1, 1, true⟩] false
    let call := closeOutput (d.outputOf "a" [[1, 2], [3]])
    let fault : ArmedFault := ⟨.send .execute, Fault.lost, 3⟩
    let first := finalState (call.run ⟨d, backend, Wire.new.arm fault, none⟩)
    let desk : Desk := ⟨d, backend,
      ((Wire.new.setStore 0 (first.stores 0)).setStore 1 (first.stores 1)).arm fault, none⟩
    d.volume.blockIn "a" 0 desk.client.table ≠ none ∧
      (∀ (count : Nat) (observer : Client),
        observer.Sees backend.storeOf d.volume.keys ((call.plan d).storesAt desk.client count) →
        Utf8.encode "a" ∉ observer.table d.volume.catalogKey ∨
          d.ReadsAs observer "a" [1, 2, 3]) ∧
      ∃ count, (finalState (call.run desk)).stores =
        (call.plan d).storesAt desk.client count := by
  intro d backend call fault first desk
  have hleft : d.volume.blockIn "a" 0 desk.client.table ≠ none := by decide +kernel
  have habsent : Utf8.encode "a" ∉ desk.client.table d.volume.catalogKey := by decide +kernel
  have hsound : desk.client.Sound := by
    refine ⟨fun _ slot => ?_, rfl⟩
    fin_cases slot <;> rfl
  have htrue : desk.client.wire.Suffers Fault.Truthful :=
    (Wire.suffers_of_threats_nil rfl _).arm fun _ => ⟨_, _, rfl⟩
  have hbrings : call.Brings desk "a" [[1, 2], [3]].flatten := .close "a" [[1, 2], [3]] (by decide)
  exact ⟨hleft, appears_complete rfl hsound htrue hbrings habsent⟩

end Mutation

end BlockDir
