import BlockDir.Proofs.Directory.Appearing

/-!
# Overwriting a file

New blocks are put in the place of old ones while the entry still tells the old length, so a file
that is overwritten in several steps may be read, when they are cut short, as first blocks of the new
version before later ones of the old. It is one of the two versions where the steps are one
transaction, and where the new blocks do not change what is read of the old version.
-/

namespace BlockDir

open Client

/-- Where `old` and `new` agree as far as the blocks of `new` reach, a block of `new` begins with what
`old` has in its place. -/
theorem take_block_of_prefix {n : Nat} (hn : 0 < n) {old new : Bytes}
    (h : old.take (Layout.blockCount new.length n * n) <+: new) {index : Nat}
    (hold : index < Layout.blockCount old.length n) (hnew : index < Layout.blockCount new.length n) :
    Layout.blockLen old.length n index ≤ ((new.drop (index * n)).take n).length ∧
      ((new.drop (index * n)).take n).take (Layout.blockLen old.length n index) =
        (old.drop (index * n)).take n := by
  obtain ⟨rest, hrest⟩ := h
  have hstart : index * n < old.length := (Layout.lt_blockCount_iff hn).1 hold
  have hend : index * n + n ≤ Layout.blockCount new.length n * n := by
    rw [← Nat.succ_mul]
    exact Nat.mul_le_mul_right n hnew
  have hwhole := congrArg List.length hrest
  rw [List.length_append, List.length_take] at hwhole
  have hsize : Layout.blockLen old.length n index = min (old.length - index * n) n := rfl
  generalize Layout.blockLen old.length n index = size at hsize ⊢
  generalize Layout.blockCount new.length n * n = reach at hend hwhole hrest
  constructor
  · rw [List.length_take, List.length_drop]
    omega
  · rw [List.take_take, ← hrest, List.drop_append_of_le_length (by rw [List.length_take]; omega),
      List.take_append_of_le_length (by rw [List.length_drop, List.length_take]; omega),
      List.drop_take, List.take_take, List.take_eq_take_iff, List.length_drop]
    omega

/-- Such a block is decoded as the one in whose place it was put. -/
theorem Volume.decodeBlock_of_prefix {v : Volume} (hv : v.Proper) {old new : Bytes}
    (h : old.take (Layout.blockCount new.length v.blockSize * v.blockSize) <+: new)
    (name : String) {index : Nat} {stored block : Bytes}
    (hstored : (v.storedForms new)[index]? = some stored)
    (hblock : (chunks v.blockSize old)[index]? = some block) :
    v.decodeBlock name old.length index stored = .ok block := by
  have hpos := hv.blockSize_pos
  obtain ⟨hnew, rfl⟩ := (getElem?_storedForms_eq_some_iff hv).1 hstored
  rw [getElem?_chunks hpos] at hblock
  split at hblock
  · rename_i hold
    obtain ⟨hlong, htake⟩ := take_block_of_prefix hpos h hold hnew
    apply (decodeBlock_form_eq_ok_iff hv (List.length_take_le _ _)).2
    rw [htake]
    exact ⟨hlong, (Option.some.inj hblock).symm⟩
  · cases hblock

namespace Directory

variable {d : Directory} {tables : Bytes → Table} {name : String} {old new : Bytes}

/-- Blocks of a new version in the place of old ones leave the old version to be read, if the two
agree as far as the new blocks reach. -/
theorem readsIn_blockWrites (hv : d.volume.Proper) (hread : d.ReadsIn tables name old)
    (hbegins : old.take (Layout.blockCount new.length d.volume.blockSize * d.volume.blockSize) <+: new)
    (few : Nat) :
    d.ReadsIn (Batch.onTables (d.volume.blockWrites name ((d.volume.storedForms new).take few)) tables)
      name old := by
  obtain ⟨hopen, hlength, stored, hstored, hblocks⟩ := (readsIn_iff_blocks hv).1 hread
  obtain ⟨hcount, hin⟩ := Volume.storedIn_eq_ok_iff.1 hstored
  obtain ⟨hsame, heach⟩ := Volume.decodeBlocks_eq_ok_iff.1 hblocks
  generalize hfront : (d.volume.storedForms new).take few = front
  -- the first blocks are new, the others are as they were
  let mixed := (front ++ stored.drop front.length).take stored.length
  have hmixed : mixed.length = stored.length := by
    simp only [mixed, List.length_take, List.length_append, List.length_drop]
    omega
  have hget : ∀ index < stored.length,
      mixed[index]? = if index < front.length then front[index]? else stored[index]? := by
    intro index hindex
    rw [List.getElem?_take, if_pos hindex, List.getElem?_append]
    split
    · rfl
    · rw [List.getElem?_drop]
      congr 1
      omega
  refine (readsIn_iff_blocks hv).2 ⟨hopen, ?_, mixed, ?_, ?_⟩
  · rw [Volume.lengthIn, Volume.entryIn_blockWrites hv.keys_ne]
    exact hlength
  · refine Volume.storedIn_eq_ok_iff.2 ⟨by rw [hmixed]; exact hcount, ?_⟩
    intro index hindex
    rw [hmixed] at hindex
    rw [Volume.blockIn_blockWrites, hget index hindex, hin index hindex]
    simp only [true_and]
  · refine Volume.decodeBlocks_eq_ok_iff.2 ⟨hmixed.trans hsame, ?_⟩
    intro index hs hb
    rw [hmixed] at hs
    have hvalue := hget index hs
    rw [List.getElem?_eq_getElem (hmixed.symm ▸ hs)] at hvalue
    split at hvalue
    · rename_i hnew
      apply Volume.decodeBlock_of_prefix hv hbegins name _ (List.getElem?_eq_getElem hb)
      rw [hvalue, ← hfront, List.getElem?_take, if_pos]
      rw [← hfront, List.length_take] at hnew
      omega
    · rw [List.getElem?_eq_getElem hs] at hvalue
      rw [Option.some.inj hvalue]
      exact heach index hs hb

end Directory

namespace Mutation

/-- Whatever fails when an output is closed over a file that could be read, the file is read as it
was or as it was written, by any client that sees without faults what is left: if the closing is one
transaction, or if the old version, as far as the new blocks reach, is what the new one begins with.
Otherwise first blocks of the new version may be read before later ones of the old. -/
theorem closeOutput_leaves_a_version {d : Directory} (hvalid : d.config.validate = .ok ())
    {client : Client} (hsound : client.Sound) (htrue : client.wire.Suffers Fault.Truthful)
    {name : String} {old : Bytes} (hread : d.ReadsAs client.calm name old) (writes : List Bytes)
    (hsmall : Layout.blockCount writes.flatten.length d.config.blockSize ≤ Layout.maxBlocks)
    (hspared : client.Whole d.volume.keys ∨
      old.take (Layout.blockCount writes.flatten.length d.config.blockSize * d.config.blockSize) <+:
        writes.flatten)
    {observer : Client}
    (hsees : observer.Sees client.backend.storeOf d.volume.keys
      (finalState ((closeOutput (d.outputOf name writes)).run ⟨d, client⟩)).stores) :
    d.ReadsAs observer name old ∨ d.ReadsAs observer name writes.flatten := by
  have hv : d.volume.Proper := Volume.proper_ofConfig hvalid
  have hbefore : d.ReadsIn client.table name old :=
    Directory.readsIn_of_readsAs hsound.calm (client.calm_suffers _) hread
  let desk : Desk := ⟨d, client⟩
  have hclient : desk.client.Sound := hsound
  obtain ⟨count, hstores, hends⟩ := (closeOutput (d.outputOf name writes)).stores_cut hclient htrue
  rw [hstores] at hsees
  have hagree : d.volume.Agree name observer.table (Batch.onTables
      (((d.storePlan (d.outputOf name writes)).batch client.table).take count) client.table) :=
    Volume.agree_of_keys fun _ hkey => hsees.table_storesAt hkey
  have hreads : ∀ {content : Bytes}, d.ReadsIn (Batch.onTables
      (((d.storePlan (d.outputOf name writes)).batch client.table).take count) client.table)
      name content → d.ReadsAs observer name content := by
    intro content hcontent
    exact Directory.readsAs_of_steady hsees.sound hsees.steady
      (Directory.readsIn_of_agree hagree hcontent)
  obtain hnone | ⟨hopen, stale, hbatch⟩ := Directory.batch_storePlan hv name writes client.table
  · left
    apply hreads
    rw [hnone, List.take_nil]
    exact hbefore
  · rw [hbatch] at hreads
    rcases hspared with hwhole | hbegins
    · rcases hends hwhole with hzero | hall
      · left
        apply hreads
        rw [hzero, List.take_zero]
        exact hbefore
      · right
        apply hreads
        rw [hall.trans (congrArg List.length hbatch), List.take_length]
        exact Directory.readsIn_saveBatch hv hopen hsmall name stale
    · obtain ⟨few, htake⟩ | ⟨stale', -, htake⟩ := Volume.take_saveBatch (v := d.volume) name
        (d.volume.storedForms writes.flatten) writes.flatten.length stale count
      · left
        apply hreads
        rw [htake]
        exact Directory.readsIn_blockWrites hv hbefore hbegins few
      · right
        apply hreads
        rw [htake]
        exact Directory.readsIn_saveBatch hv hopen hsmall name stale'

/-- Bytes that are appended over a cluster, cut off before the second block is written. -/
theorem closeOutput_leaves_a_version_appending :
    let d : Directory := ⟨{ Config.standard with blockSize := 2 }, 0, [], false⟩
    let backend : Backend := .cluster #v[⟨0, 0, true⟩, ⟨1, 1, true⟩] false
    let saved := finalState
      ((closeOutput (d.outputOf "a" [[1, 2, 3]])).run ⟨d, backend, Wire.new, none⟩)
    let client : Client := ⟨backend, ((Wire.new.setStore 0 (saved.stores 0)).setStore 1
      (saved.stores 1)).arm ⟨.send .execute, Fault.lost, 3⟩, none⟩
    let after := (finalState ((closeOutput (d.outputOf "a" [[1, 2, 3, 4], [5]])).run
      ⟨d, client⟩)).client
    let observer : Client := ⟨backend, after.calm.wire, none⟩
    d.ReadsAs observer "a" [1, 2, 3] ∨ d.ReadsAs observer "a" [1, 2, 3, 4, 5] := by
  intro d backend saved client after observer
  have hread : d.ReadsAs client.calm "a" [1, 2, 3] := by decide +kernel
  have hsound : backend.Sound := by
    intro _ slot
    fin_cases slot <;> rfl
  have htrue : client.wire.Suffers Fault.Truthful :=
    (Wire.suffers_of_threats_nil rfl _).arm fun _ => ⟨_, _, rfl⟩
  have hsees : observer.Sees backend.storeOf d.volume.keys after.wire.store :=
    ⟨⟨hsound, rfl⟩, ⟨rfl, fun _ _ => rfl⟩, fun _ _ => rfl, rfl⟩
  have hbegins : List.take (Layout.blockCount 5 2 * 2) [1, 2, 3] <+: ([1, 2, 3, 4, 5] : Bytes) := by
    decide
  exact closeOutput_leaves_a_version rfl ⟨hsound, rfl⟩ htrue hread [[1, 2, 3, 4], [5]] (by decide)
    (.inr hbegins) hsees

/-- A file of two blocks that is overwritten over a cluster, cut off before the second block is
written: it is read as the first block of the new version and the second of the old. -/
theorem closeOutput_mixes_versions :
    let d : Directory := ⟨{ Config.standard with blockSize := 2 }, 0, [], false⟩
    let backend : Backend := .cluster #v[⟨0, 0, true⟩, ⟨1, 1, true⟩] false
    let saved := finalState
      ((closeOutput (d.outputOf "a" [[1, 2, 3, 4]])).run ⟨d, backend, Wire.new, none⟩)
    let client : Client := ⟨backend, ((Wire.new.setStore 0 (saved.stores 0)).setStore 1
      (saved.stores 1)).arm ⟨.send .execute, Fault.lost, 3⟩, none⟩
    let after := (finalState ((closeOutput (d.outputOf "a" [[5, 6, 7, 8]])).run
      ⟨d, client⟩)).client.calm
    d.ReadsAs client.calm "a" [1, 2, 3, 4] ∧ d.ReadsAs after "a" [5, 6, 3, 4] ∧
      ¬ d.ReadsAs after "a" [1, 2, 3, 4] ∧ ¬ d.ReadsAs after "a" [5, 6, 7, 8] := by
  decide +kernel

end Mutation

end BlockDir
