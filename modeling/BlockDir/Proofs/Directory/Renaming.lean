import BlockDir.Proofs.Directory.Opening
import BlockDir.Proofs.Volume.Files

/-!
# Renaming never loses a file

Renaming writes the whole file under its new name before it touches the old one, so wherever it is
cut short the file is complete under one of the two names.
-/

namespace BlockDir

namespace Volume

variable {v : Volume} {tables : Bytes → Table}

/-- A file that was saved from blocks that another name has is loaded as the same file. -/
theorem loadedIn_saved (hkeys : v.catalogKey ≠ v.blocksKey) {source : String} (dest : String)
    {length : Nat} {stored : List Bytes} {file : LoadedFile}
    (hlength : v.lengthIn source tables = .ok (some length))
    (hstored : v.storedIn source length tables = .ok stored)
    (hfile : v.loadedIn source length tables = .ok file) (stale : Nat) :
    let after := Batch.onTables (v.saveBatch dest stored length stale) tables
    v.lengthIn dest after = .ok (some length) ∧ v.loadedIn dest length after = .ok file := by
  intro after
  obtain ⟨entry, -, hwidth, htoNat⟩ := lengthIn_eq_some_iff.1 hlength
  obtain ⟨found, blocks, hfound, hblocks, rfl⟩ := loadedIn_eq_ok_iff.1 hfile
  obtain rfl : stored = found := Except.ok.inj (hstored.symm.trans hfound)
  obtain ⟨hcount, -⟩ := storedIn_eq_ok_iff.1 hstored
  have hfits : (Layout.encodeLength length).toNat = length := by
    rw [← htoNat, Layout.encodeLength_toNat hwidth]
  obtain ⟨hlength', hstored'⟩ := storedIn_saveBatch hkeys hfits (storedCount_ok_of_ok hcount) stale
  exact ⟨hlength', loadedIn_eq_ok_iff.2
    ⟨stored, blocks, hstored', decodeBlocks_ok_of_ok hblocks, rfl⟩⟩

end Volume

namespace Directory

variable {d : Directory} {tables : Bytes → Table} {source dest : String}

/-- What renaming a file that can be loaded commits, if anything. -/
theorem batch_renameFilePlan (hne : source ≠ dest) {length : Nat} {stored : List Bytes}
    (hclosed : d.closed = false) (hlength : d.volume.lengthIn source tables = .ok (some length))
    (hstored : d.volume.storedIn source length tables = .ok stored) :
    (d.renameFilePlan source dest).batch tables = [] ∨ ∃ stale,
      (d.renameFilePlan source dest).batch tables =
        d.volume.renameBatch source dest stored length stale := by
  obtain ⟨hcount, -⟩ := Volume.storedIn_eq_ok_iff.1 hstored
  simp only [Plan.batch, renameFilePlan, ensureOpen, hclosed, hlength, hstored, Volume.renamePlan,
    hcount, hne, bind, Except.bind, if_false, Bool.false_eq_true]
  cases hprevious : d.volume.lengthIn dest tables with
  | error e => exact .inl rfl
  | ok previous =>
    cases hstale : d.volume.staleCount dest previous with
    | error e =>
      left
      simp [hstale]
    | ok stale =>
      right
      exact ⟨stale, by simp [hstale, pure, Except.pure]⟩

/-- After any part of a renaming, the file is whole under one of its two names. -/
theorem readsIn_take_rename (hkeys : d.volume.catalogKey ≠ d.volume.blocksKey) (hne : source ≠ dest)
    {content : Bytes} (hread : d.ReadsIn tables source content) (count : Nat) :
    let after := Batch.onTables (((d.renameFilePlan source dest).batch tables).take count) tables
    ∃ name, (name = source ∨ name = dest) ∧ d.ReadsIn after name content ∧
      d.volume.lengthIn name after = d.volume.lengthIn source tables := by
  intro after
  obtain ⟨hclosed, length, file, hlength, hfile, hbytes⟩ := readsIn_iff.1 hread
  obtain ⟨stored, -, hstored, -, -⟩ := Volume.loadedIn_eq_ok_iff.1 hfile
  obtain hnone | ⟨stale, hbatch⟩ := batch_renameFilePlan hne hclosed hlength hstored
  · have hsame : after = tables := by
      simp only [after, hnone, List.take_nil, Batch.onTables_nil]
    rw [hsame]
    exact ⟨source, .inl rfl, hread, rfl⟩
  · -- the old name is untouched until the new one is complete
    rcases Nat.le_total count (d.volume.saveBatch dest stored length stale).length with hfew | hmany
    · have hagree : d.volume.Agree source after tables := by
        simp only [after, hbatch, Volume.renameBatch, List.take_append_of_le_length hfew]
        exact Volume.agree_take_saveBatch hkeys hne stored length stale count tables
      exact ⟨source, .inl rfl, readsIn_of_agree hagree hread, hagree.lengthIn⟩
    · obtain ⟨hlength', hfile'⟩ :=
        Volume.loadedIn_saved hkeys dest hlength hstored hfile stale
      have hsaved : d.ReadsIn (Batch.onTables (d.volume.saveBatch dest stored length stale) tables)
          dest content :=
        readsIn_iff.2 ⟨hclosed, length, file, hlength', hfile', hbytes⟩
      have hagree : d.volume.Agree dest after
          (Batch.onTables (d.volume.saveBatch dest stored length stale) tables) := by
        simp only [after, hbatch, Volume.renameBatch]
        rw [List.take_append, List.take_of_length_le hmany, Batch.onTables_append]
        exact Volume.agree_take_deleteBatch hkeys hne.symm stored.length _ _
      exact ⟨dest, .inr rfl, readsIn_of_agree hagree hsaved,
        hagree.lengthIn.trans (hlength'.trans hlength.symm)⟩

/-- A file that could be read before it was renamed can be read, with the same content, under its
old or its new name: in the stores between any two writes of the renaming, and in those that are
left by a renaming in which any calls fail. -/
theorem renameFile_keeps_content (hvalid : d.config.validate = .ok ()) {client : Client}
    (hsound : client.Sound) (htrue : client.wire.Suffers Fault.Truthful)
    (hne : source ≠ dest) {content : Bytes} (hread : d.ReadsAs client.calm source content) :
    (∀ (between : Client) (count : Nat), client.calm.Later between →
        between.wire.store = (d.renameFilePlan source dest).storesAt client count →
        d.ReadsAs between source content ∨ d.ReadsAs between dest content) ∧
      (∃ count, (finalState (d.renameFile source dest client)).wire.store =
        (d.renameFilePlan source dest).storesAt client count) ∧
      (d.ReadsAs (finalState (d.renameFile source dest client)).calm source content ∨
        d.ReadsAs (finalState (d.renameFile source dest client)).calm dest content) := by
  have hbefore : d.ReadsIn client.table source content :=
    readsIn_of_readsAs hsound.calm (client.calm_suffers _) hread
  obtain ⟨hcatalog, hblocks⟩ := serves_of_readsAs hsound.calm rfl hread
  have hbetween : ∀ (between : Client) (count : Nat), client.calm.Later between →
      between.wire.store = (d.renameFilePlan source dest).storesAt client count →
      d.ReadsAs between source content ∨ d.ReadsAs between dest content := by
    intro between count hlater hstore
    have htables : between.table = Batch.onTables
        (((d.renameFilePlan source dest).batch client.table).take count) client.table :=
      Client.table_of_onStores hlater.backend.place hstore
    obtain ⟨name, hname, hafter, hlength⟩ :=
      readsIn_take_rename (Volume.proper_ofConfig hvalid).keys_ne hne hbefore count
    rw [← htables] at hafter hlength
    have hreads : d.ReadsAs between name content := by
      refine readsAs_of_serves (hlater.sound hsound.calm)
        (List.subset_nil.1 hlater.threats) hafter ((hlater.backend.serves _).2 hcatalog) ?_
      rcases hblocks with hzero | hserves
      · exact .inl (hlength.trans hzero)
      · exact .inr ((hlater.backend.serves _).2 hserves)
    rcases hname with rfl | rfl
    · exact .inl hreads
    · exact .inr hreads
  obtain ⟨after, count, houtcome, -⟩ := d.mutates_renameFile source dest client hsound htrue
  rw [houtcome.finalState]
  refine ⟨hbetween, ⟨count, houtcome.stores⟩, hbetween after.calm count ?_ houtcome.stores⟩
  exact ⟨houtcome.later.backend, houtcome.later.window, fun _ hmem => hmem⟩

/-- A renaming that is cut off after the block and the length were written under the new name. -/
theorem renameFile_keeps_content_cut :
    let d : Directory := ⟨.standard, 0, [], false⟩
    let saved := finalState
      (d.volume.save "a" [[1, 2, 3]] 3 ⟨.single ⟨0, 0, true⟩ false, Wire.new, none⟩)
    let wire := (Wire.new.setStore 0 (saved.wire.store 0)).arm ⟨.send .transaction, Fault.cut 2, 1⟩
    let client : Client := ⟨.single ⟨0, 0, true⟩ false, wire, none⟩
    let after := finalState (d.renameFile "a" "b" client)
    (∀ (between : Client) (count : Nat), client.calm.Later between →
        between.wire.store = (d.renameFilePlan "a" "b").storesAt client count →
        d.ReadsAs between "a" [1, 2, 3] ∨ d.ReadsAs between "b" [1, 2, 3]) ∧
      (∃ count, after.wire.store = (d.renameFilePlan "a" "b").storesAt client count) ∧
      (d.ReadsAs after.calm "a" [1, 2, 3] ∨ d.ReadsAs after.calm "b" [1, 2, 3]) := by
  intro d saved wire client after
  have hread : d.ReadsAs client.calm "a" [1, 2, 3] := by decide +kernel
  have hsound : client.Sound := ⟨fun _ => rfl, rfl⟩
  have htrue : client.wire.Suffers Fault.Truthful :=
    (Wire.suffers_of_threats_nil rfl _).arm (Fault.truthful_transaction _)
  exact renameFile_keeps_content rfl hsound htrue (by decide) hread

end Directory

end BlockDir
