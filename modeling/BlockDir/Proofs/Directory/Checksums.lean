import BlockDir.Proofs.Checksum.Remainder
import BlockDir.Proofs.Checksum.Splitting
import BlockDir.Proofs.Directory.Records

/-!
# Checksums of files

An output has the checksum of what was written to it, so the checksum that it has when it is closed is
that of the bytes that are read from its file. Main statement: `Checksum.independent_of_splitting`.
-/

namespace BlockDir

open Client

theorem Output.checksum_written (name : String) (blockSize : Nat) (enabled : Bool)
    (writes : List Bytes) :
    (written name blockSize enabled writes).checksum =
      (Checksum.new enabled).update writes.flatten := by
  unfold written
  induction writes using List.reverseRecOn with
  | nil => exact (Checksum.update_nil _).symm
  | append_singleton front data ih =>
    rw [List.foldl_append, List.flatten_append, List.flatten_singleton, Checksum.update_append, ← ih]
    rfl

/-- An output of a directory with checksums answers that of what was written to it. -/
theorem Directory.checksumValue_outputOf {d : Directory} (hchecksum : d.config.checksum = true)
    (name : String) (writes : List Bytes) :
    (d.outputOf name writes).checksumValue = .ok (Crc32.checksum writes.flatten) := by
  rw [outputOf, Output.checksumValue, Output.checksum_written, Checksum.value_update_new, hchecksum]
  rfl

namespace Directory

variable {d : Directory} {tables : Bytes → Table} {name : String} {content : Bytes}

/-- A file is read as one content. -/
theorem ReadsIn.content_eq {other : Bytes} (h : d.ReadsIn tables name content)
    (h' : d.ReadsIn tables name other) : content = other := by
  obtain ⟨reader, last, hinput, hread⟩ := h
  obtain ⟨reader', last', hinput', hread'⟩ := h'
  obtain rfl := Except.ok.inj (hinput.symm.trans hinput')
  exact (EStateM.Result.ok.inj (hread.symm.trans hread')).1

/-- What is read once a content of storable length was saved is that content. -/
theorem ReadsIn.eq_of_saveBatch (hv : d.volume.Proper) {found : Bytes}
    (hshort : content.length < 2 ^ 64) {stale : Nat}
    (h : d.ReadsIn (Batch.onTables
      (d.volume.saveBatch name (d.volume.storedForms content) content.length stale) tables)
      name found) : found = content := by
  obtain ⟨hopen, hlength, stored, hstored, -⟩ := (readsIn_iff_blocks hv).1 h
  have hfound : found.length = content.length := by
    obtain ⟨entry, hentry, -, hvalue⟩ := Volume.lengthIn_eq_some_iff.1 hlength
    rw [Volume.entryIn_saveBatch hv.keys_ne, if_pos rfl] at hentry
    rw [← hvalue, ← Option.some.inj hentry, Layout.toNat_encodeLength hshort]
  -- as the blocks are counted, they are not too many
  have hcount := (Volume.storedIn_eq_ok_iff.1 hstored).1
  rw [hfound] at hcount
  obtain ⟨-, hblocks, hfew⟩ := Volume.storedCount_eq_ok_iff.1 hcount
  rw [hblocks] at hfew
  exact h.content_eq (readsIn_saveBatch hv hopen hfew name stale)

end Directory

namespace Desk

variable {desk after : Desk} {name : String} {writes : List Bytes}

/-- An output that was closed has its content saved, if success confirms what was applied. -/
theorem table_closeOutput (hvalid : desk.directory.config.validate = .ok ())
    (hsound : desk.client.Sound) (htrue : desk.client.wire.Suffers Fault.Truthful)
    (hfair : desk.client.wire.Suffers Fault.Fair)
    (hclose : closeOutput (desk.directory.outputOf name writes) desk = .ok () after) :
    let v := desk.directory.volume
    ∃ stale, after.client.table = Batch.onTables
      (v.saveBatch name (v.storedForms writes.flatten) writes.flatten.length stale)
      desk.client.table := by
  intro v
  have hstore := Mutation.act_eq_ok (m := .closeOutput (desk.directory.outputOf name writes)) hclose
  obtain ⟨batch, hplan, hlater, hstores⟩ :=
    (desk.directory.mutates_store _).stores_of_ok hsound htrue hfair hstore
  obtain ⟨-, stale, rfl⟩ :=
    Directory.storePlan_outputOf_eq_ok (Volume.proper_ofConfig hvalid) hplan
  exact ⟨stale, table_of_onStores hlater.backend.place hstores⟩

end Desk

namespace Checksum

/-- However bytes are cut into pieces, which are fed or written, and whatever copies are taken on the
way, gone on with, exchanged or dropped, a running checksum answers the checksum of the bytes that it
took in itself, in between and at the end, and their number. That checksum is the remainder of the
standard. So an output answers, before it is closed, the checksum of what is read from its file
afterwards, by anyone and as long as the file is left alone; without faults the file is read as just
what was written. -/
theorem independent_of_splitting :
    (∀ (enabled : Bool) (acts : List Handling),
      let builders := Handling.run update (fun c data => (c.write data).2) [new enabled] acts
      let fed := Handling.run (· ++ ·) (· ++ ·) [[]] acts
      let sums := fed.map fun bytes => if enabled then some (Crc32.checksum bytes) else none
      builders.map value = sums ∧ builders.map finalize = sums ∧
        builders.map bytes = fed.map List.length) ∧
    (∀ (bytes : Bytes) (value : UInt32),
      Crc32.IsChecksum bytes value ↔ value = Crc32.checksum bytes) ∧
    ∀ (desk : Desk) (name : String) (writes : List Bytes),
      desk.directory.config.checksum = true →
      let output := desk.directory.outputOf name writes
      output.checksumValue = .ok (Crc32.checksum writes.flatten) ∧
      (desk.directory.config.validate = .ok () → desk.client.Sound →
        writes.flatten.length < 2 ^ 64 →
        (desk.client.wire.Suffers Fault.Truthful → desk.client.wire.Suffers Fault.Fair →
          ∀ after, Desk.closeOutput output desk = .ok () after →
          ∀ (directory : Directory) (reader : Client) (content : Bytes),
            directory.volume = desk.directory.volume → reader.Sound →
            reader.wire.Suffers Fault.Truthful →
            directory.volume.Agree name after.client.table reader.table →
            directory.ReadsAs reader name content →
            output.checksumValue = .ok (Crc32.checksum content)) ∧
        (desk.directory.closed = false → desk.client.Steady desk.directory.volume.keys →
          desk.directory.volume.Replaceable name desk.client.table →
          Layout.blockCount writes.flatten.length desk.directory.config.blockSize ≤
            Layout.maxBlocks →
          ∃ after, Desk.closeOutput output desk = .ok () after ∧
            after.directory.ReadsAs after.client name writes.flatten)) := by
  refine ⟨fun enabled acts => ?_, fun bytes value => Crc32.isChecksum_iff, ?_⟩
  · intro builders fed sums
    have hbuilders : builders = fed.map (new enabled).update := handled_eq_map enabled acts
    have hvalues : builders.map value = sums := by
      rw [hbuilders, List.map_map]
      exact List.map_congr_left fun data _ => value_update_new enabled data
    refine ⟨hvalues, (List.map_congr_left fun c _ => finalize_eq_value c).trans hvalues, ?_⟩
    rw [hbuilders, List.map_map]
    exact List.map_congr_left fun data _ => bytes_update_new enabled data
  · intro desk name writes hchecksum output
    have hvalue : output.checksumValue = .ok (Crc32.checksum writes.flatten) :=
      Directory.checksumValue_outputOf hchecksum name writes
    refine ⟨hvalue, fun hvalid hsound hshort => ⟨?_, ?_⟩⟩
    · intro htrue hfair after hclose directory reader content hvolume hreader hhonest hagree hreads
      obtain ⟨stale, htable⟩ := Desk.table_closeOutput hvalid hsound htrue hfair hclose
      have hproper : directory.volume.Proper := hvolume ▸ Volume.proper_ofConfig hvalid
      have hread : directory.ReadsIn after.client.table name content :=
        Directory.readsIn_of_agree hagree
          (Directory.readsIn_of_readsAs hreader hhonest hreads)
      rw [htable, ← hvolume] at hread
      rw [hvalue, hread.eq_of_saveBatch hproper hshort]
    · intro hopen hsteady hreplaceable hsmall
      obtain ⟨after, hclose, hdirectory, hlater, hread⟩ :=
        Desk.closeOutput_eq_ok desk hvalid hopen hsound hsteady hreplaceable hsmall
      have hvolume : after.directory.volume = desk.directory.volume := by
        rw [hdirectory]
        rfl
      exact ⟨after, hclose, Directory.readsAs_of_steady (hlater.sound hsound)
        (hvolume ▸ hlater.steady hsteady) hread⟩

/-- The nine digits, whose check value is commonly given, in pieces over blocks of four bytes; and a
copy that goes another way after the first digit. -/
theorem independent_of_splitting_digits :
    let acts : List Handling :=
      [.feed 0 [49], .copy 0, .write 0 [57], .swap 0 1, .feed 0 [50, 51], .write 0 [], .copy 1,
        .drop 2]
    let d : Directory := ⟨{ Config.standard with blockSize := 4, compress := true }, 0, [], false⟩
    let desk : Desk := ⟨d, .single ⟨0, 0, true⟩ false, Wire.new, none⟩
    let digits : Bytes := [49, 50, 51, 52, 53, 54, 55, 56, 57]
    let writes : List Bytes := [[49], [], [50, 51, 52, 53, 54, 55, 56], [57]]
    let output := d.outputOf "a" writes
    (Handling.run update (fun c data => (c.write data).2) [new true] acts).map finalize =
        [some (Crc32.checksum [49, 57]), some (Crc32.checksum [49, 50, 51])] ∧
      Crc32.IsChecksum digits 0xCBF43926 ∧
      output.checksumValue = .ok 0xCBF43926 ∧
      ∃ after, Desk.closeOutput output desk = .ok () after ∧
        after.directory.ReadsAs after.client "a" digits ∧
        ∀ content, after.directory.ReadsAs after.client "a" content →
          output.checksumValue = .ok (Crc32.checksum content) := by
  intro acts d desk digits writes output
  have hcheck : Crc32.checksum digits = 0xCBF43926 := by decide +kernel
  have hsound : desk.client.Sound := ⟨fun _ => rfl, rfl⟩
  have hsteady : desk.client.Steady d.volume.keys := ⟨rfl, fun _ _ => rfl⟩
  have hreplaceable : d.volume.Replaceable "a" desk.client.table := by
    have hentry : d.volume.entryIn "a" desk.client.table = none := by decide +kernel
    intro stored hstored
    cases hentry.symm.trans hstored
  have hsmall : Layout.blockCount writes.flatten.length 4 ≤ Layout.maxBlocks := by decide
  obtain ⟨after, hclose, hdirectory, hlater, -⟩ :=
    Desk.closeOutput_eq_ok desk rfl rfl hsound hsteady hreplaceable hsmall
  have hvolume : after.directory.volume = d.volume := by
    rw [hdirectory]
    rfl
  have hcalm : after.client.wire.threats = [] := List.subset_nil.1 hlater.threats
  obtain ⟨hpieces, hstandard, houtput⟩ := independent_of_splitting
  obtain ⟨hvalue, hfile⟩ := houtput desk "a" writes rfl
  obtain ⟨hread, hstored⟩ := hfile rfl hsound (by decide)
  obtain ⟨found, hfound, hreads⟩ := hstored rfl hsteady hreplaceable hsmall
  obtain ⟨-, rfl⟩ := EStateM.Result.ok.inj (hclose.symm.trans hfound)
  refine ⟨(hpieces true acts).2.1, (hstandard digits _).2 hcheck.symm, ?_, after, hclose, hreads, ?_⟩
  · rw [hvalue]
    exact congrArg Except.ok hcheck
  · intro content hcontent
    exact hread (Wire.suffers_of_threats_nil rfl _) (Wire.suffers_of_threats_nil rfl _) after hclose
      after.directory after.client content hvolume (hlater.sound hsound)
      (Wire.suffers_of_threats_nil hcalm _) (Volume.agree_of_keys fun _ _ => rfl) hcontent

end Checksum

end BlockDir
