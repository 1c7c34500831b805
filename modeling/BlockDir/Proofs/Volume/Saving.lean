import BlockDir.Proofs.Directory.Records

/-!
# What is saved and what is loaded

Saving takes any list of blocks. Too few of them are refused, and each block is cut to its place in
the file; but a block that is too short for its place is stored as it is, though loading refuses it.
So what was saved is loaded, each block as far as it fits its place, just if all places are filled
(`Volume.save_then_load`). If one is not, the previous version is gone and the new one cannot be read
(`Volume.save_short_block`).
-/

namespace BlockDir

theorem Layout.blockKey_ne_encode (name : String) (index : Nat) :
    blockKey name index ≠ Utf8.encode name := by
  intro h
  have hlength := congrArg List.length h
  simp only [blockKey, List.length_append, List.length_cons] at hlength
  omega

/-- A row of actions on numbered values fails as one of them does. -/
theorem mapM_zipIdx_eq_error {α β : Type} (f : α → Nat → Except Error β) {as : List α} {e : Error}
    (h : (as.zipIdx.mapM fun pair => f pair.1 pair.2) = .error e) :
    ∃ (index : Nat) (hindex : index < as.length), f as[index] index = .error e := by
  obtain ⟨pair, hmem, hfails⟩ := mapM_eq_error h
  obtain ⟨hindex, hvalue⟩ := List.getElem?_eq_some_iff.1 (List.mem_zipIdx_iff_getElem?.1 hmem)
  exact ⟨pair.2, hindex, by rwa [hvalue]⟩

/-- Whether there is a block for every place of a file, none shorter than its place. -/
def Layout.Filled (length size : Nat) (blocks : List Bytes) : Prop :=
  ∀ index < blockCount length size, ∃ block, blocks[index]? = some block ∧
    blockLen length size index ≤ block.length

namespace Volume

variable {v : Volume} {tables : Bytes → Table} {name : String} {length stale : Nat}
  {blocks stored : List Bytes}

/-- The blocks of a file, each cut to its place. -/
def trimmed (v : Volume) (length : Nat) (blocks : List Bytes) : List Bytes :=
  (blocks.take (Layout.blockCount length v.blockSize)).mapIdx fun index block =>
    block.take (Layout.blockLen length v.blockSize index)

/-- What it takes to save a file: as many blocks as its length calls for, which can be encoded, and
nothing under its name that saving does not get past. -/
structure Savable (v : Volume) (name : String) (blocks : List Bytes) (length : Nat)
    (tables : Bytes → Table) : Prop where
  size : 0 < v.blockSize
  enough : Layout.blockCount length v.blockSize ≤ blocks.length
  replaceable : v.Replaceable name tables
  encodable : ∀ block ∈ v.trimmed length blocks, ∃ form, v.codec.encode block = .ok form

theorem encodeBlocks_of_encodable
    (h : ∀ block ∈ v.trimmed length blocks, ∃ form, v.codec.encode block = .ok form) :
    ∃ stored, v.encodeBlocks length (Layout.blockCount length v.blockSize) blocks = .ok stored := by
  cases hresult : v.encodeBlocks length (Layout.blockCount length v.blockSize) blocks with
  | ok stored => exact ⟨stored, rfl⟩
  | error e =>
    obtain ⟨index, hindex, hfails⟩ := mapM_zipIdx_eq_error (fun (block : Bytes) index =>
      v.codec.encode (block.take (Layout.blockLen length v.blockSize index))) hresult
    obtain ⟨form, hform⟩ := h _ (List.mem_mapIdx.2 ⟨index, hindex, rfl⟩)
    rw [hform] at hfails
    cases hfails

/-- The plan is carried out just if the file can be saved. -/
theorem savable_iff :
    v.Savable name blocks length tables ↔
      ∃ batch, v.savePlan name blocks length tables = .ok ((), batch) := by
  constructor
  · intro h
    obtain ⟨previous, stale, hprevious, hstale⟩ := (replaceable_iff h.size).1 h.replaceable
    obtain ⟨stored, hstored⟩ := encodeBlocks_of_encodable h.encodable
    refine ⟨v.saveBatch name stored length stale, ?_⟩
    simp [savePlan, Layout.countBlocks_of_pos h.size, Nat.not_lt.2 h.enough, hprevious, hstale,
      hstored, bind, Except.bind, pure, Except.pure]
  · rintro ⟨batch, h⟩
    obtain ⟨stored, previous, stale, hwhole, hstored, hprevious, hstale, -⟩ := savePlan_eq_ok h
    obtain ⟨count, hcount, -⟩ := bind_eq_ok.1 h
    obtain ⟨hsize, -⟩ := Layout.countBlocks_eq_ok hcount
    obtain ⟨hmin, hforms⟩ := encodeBlocks_eq_ok_iff.1 hstored
    refine ⟨hsize, by omega, (replaceable_iff hsize).2 ⟨previous, stale, hprevious, hstale⟩, ?_⟩
    intro block hmem
    rw [trimmed, List.mem_mapIdx] at hmem
    obtain ⟨index, hindex, rfl⟩ := hmem
    rw [List.length_take] at hindex
    rw [List.getElem_take]
    exact ⟨_, hforms index (by omega) (by omega)⟩

/-- Blocks are refused with the error of one that cannot be decoded. Which one that is when there are
several, nothing builds on. -/
theorem decodeBlocks_eq_error {e : Error} (h : v.decodeBlocks name length stored = .error e) :
    ∃ (index : Nat) (hs : index < stored.length),
      v.decodeBlock name length index stored[index] = .error e :=
  mapM_zipIdx_eq_error (fun form index => v.decodeBlock name length index form) h

/-- One block that cannot be decoded is enough. -/
theorem decodeBlocks_of_refused {index : Nat} (hs : index < stored.length) {e : Error}
    (h : v.decodeBlock name length index stored[index] = .error e) :
    ∃ e', v.decodeBlocks name length stored = .error e' := by
  cases hresult : v.decodeBlocks name length stored with
  | error e' => exact ⟨e', rfl⟩
  | ok blocks =>
    obtain ⟨hsame, hblocks⟩ := decodeBlocks_eq_ok_iff.1 hresult
    cases h.symm.trans (hblocks index hs (hsame ▸ hs))

/-- What was stored of a block is taken at its place just if the block fills the place. -/
theorem decodeBlock_of_encode {index : Nat} {block form : Bytes}
    (h : v.codec.encode (block.take (Layout.blockLen length v.blockSize index)) = .ok form) :
    v.decodeBlock name length index form =
      if Layout.blockLen length v.blockSize index ≤ block.length then
        .ok (block.take (Layout.blockLen length v.blockSize index))
      else .error (.damaged (.shortBlock name index block.length
        (Layout.blockLen length v.blockSize index))) := by
  rw [decodeBlock, Codec.decode_of_encode h]
  by_cases hfills : Layout.blockLen length v.blockSize index ≤ block.length
  · simp [hfills, List.length_take]
  · have hall : block.take (Layout.blockLen length v.blockSize index) = block :=
      List.take_of_length_le (by omega)
    rw [if_neg hfills, hall]
    exact if_pos (Nat.not_le.1 hfills)

section

variable (hstored : v.encodeBlocks length (Layout.blockCount length v.blockSize) blocks = .ok stored)
  (henough : Layout.blockCount length v.blockSize ≤ blocks.length)

include hstored henough

/-- Blocks that fill the file are decoded, each cut to its place. -/
theorem decodeBlocks_of_filled (hfilled : Layout.Filled length v.blockSize blocks) :
    v.decodeBlocks name length stored = .ok (v.trimmed length blocks) := by
  obtain ⟨hlength, hforms⟩ := encodeBlocks_eq_ok_iff.1 hstored
  refine decodeBlocks_eq_ok_iff.2 ⟨by simp [trimmed, ← hlength], fun index hs _ => ?_⟩
  have hindex : index < blocks.length := by omega
  obtain ⟨block, hblock, hfills⟩ := hfilled index (by omega)
  obtain rfl : blocks[index] = block := by simpa [hindex] using hblock
  rw [decodeBlock_of_encode (hforms index hindex hs), if_pos hfills]
  simp [trimmed]

/-- A block that is too short for its place keeps the file from being decoded. -/
theorem decodeBlocks_of_not_filled (hgap : ¬ Layout.Filled length v.blockSize blocks) :
    ∃ e, v.decodeBlocks name length stored = .error e ∧ e.kind = .inconsistent := by
  obtain ⟨hlength, hforms⟩ := encodeBlocks_eq_ok_iff.1 hstored
  cases hresult : v.decodeBlocks name length stored with
  | ok loaded =>
    obtain ⟨hloaded, heach⟩ := decodeBlocks_eq_ok_iff.1 hresult
    refine absurd (fun index hindex => ?_) hgap
    have hs : index < stored.length := by omega
    have hb : index < blocks.length := by omega
    refine ⟨blocks[index], List.getElem?_eq_getElem hb, ?_⟩
    by_contra hshort
    have hfails := heach index hs (hloaded ▸ hs)
    rw [decodeBlock_of_encode (hforms index hb hs), if_neg hshort] at hfails
    cases hfails
  | error e =>
    refine ⟨e, rfl, ?_⟩
    obtain ⟨index, hs, hfails⟩ := decodeBlocks_eq_error hresult
    have hb : index < blocks.length := by omega
    rw [decodeBlock_of_encode (hforms index hb hs)] at hfails
    split at hfails
    · cases hfails
    · rw [← Except.error.inj hfails]
      rfl

end

/-- After a file was saved its stored blocks are the new ones, wherever its length stands. -/
theorem blockIn_saveBatch_self {index : Nat} (hindex : index < stored.length) :
    v.blockIn name index (Batch.onTables (v.saveBatch name stored length stale) tables) =
      stored[index]? := by
  have hfield : Utf8.encode name ≠ Layout.blockKey name index :=
    (Layout.blockKey_ne_encode name index).symm
  have hlength : ∀ tables : Bytes → Table,
      v.blockIn name index (Batch.onTables (v.lengthWrite name length) tables) =
        v.blockIn name index tables := by
    intro tables
    rw [blockIn, lengthWrite, Batch.getElem?_onTables_set, if_neg fun h => hfield h.2]
    rfl
  rw [saveBatch, Batch.onTables_append, Batch.onTables_append, blockIn_blockRemoval, hlength,
    blockIn_blockWrites, if_neg fun h => absurd h.2.1 (Nat.not_le.2 hindex), if_pos ⟨rfl, hindex⟩]

/-- Blocks that were saved are loaded, each cut to its place, just if they fill the file. -/
theorem loadedIn_saveBatch (hsize : 0 < v.blockSize)
    (hfew : Layout.blockCount length v.blockSize ≤ Layout.maxBlocks)
    (hstored : v.encodeBlocks length (Layout.blockCount length v.blockSize) blocks = .ok stored)
    (henough : Layout.blockCount length v.blockSize ≤ blocks.length) :
    let after := Batch.onTables (v.saveBatch name stored length stale) tables
    (Layout.Filled length v.blockSize blocks →
      v.loadedIn name length after =
        .ok ⟨(v.trimmed length blocks).toArray, length, v.blockSize⟩) ∧
    (¬ Layout.Filled length v.blockSize blocks →
      ∃ e, v.loadedIn name length after = .error e ∧ e.kind = .inconsistent) := by
  intro after
  obtain ⟨hlength, -⟩ := encodeBlocks_eq_ok_iff.1 hstored
  have hcount : v.storedCount name length = .ok stored.length :=
    storedCount_eq_ok_iff.2 ⟨hsize, by omega, by omega⟩
  have hthere : v.storedIn name length after = .ok stored :=
    storedIn_eq_ok_iff.2 ⟨hcount, fun index hindex => blockIn_saveBatch_self hindex⟩
  simp only [loadedIn, hthere, bind, Except.bind]
  constructor
  · intro hfilled
    rw [decodeBlocks_of_filled hstored henough hfilled]
    rfl
  · intro hgap
    obtain ⟨e, hfails, hkind⟩ := @decodeBlocks_of_not_filled v name _ _ _ hstored henough hgap
    rw [hfails]
    exact ⟨e, rfl, hkind⟩

open Client

/-- On a backend without faults, whatever the tables hold, saving a file of few enough blocks refuses
what cannot be saved and writes nothing, or it succeeds. Then loading gives the blocks that were
saved, each cut to its place, just if they fill the file, and is refused as damage if they do not. -/
theorem save_then_load (v : Volume) (name : String) (blocks : List Bytes) {length : Nat}
    (hfew : Layout.blockCount length v.blockSize ≤ Layout.maxBlocks) {client : Client}
    (hsound : client.Sound) (hsteady : client.Steady v.keys) :
    (¬ v.Savable name blocks length client.table ∧ ∃ e after,
      v.save name blocks length client = .error e after ∧
        after.wire.store = client.wire.store ∧ after.table = client.table) ∨
    (v.Savable name blocks length client.table ∧ ∃ after,
      v.save name blocks length client = .ok () after ∧
        (Layout.Filled length v.blockSize blocks →
          outcome (v.load name length after) =
            .ok ⟨(v.trimmed length blocks).toArray, length, v.blockSize⟩) ∧
        (¬ Layout.Filled length v.blockSize blocks →
          ∃ e, outcome (v.load name length after) = .error e ∧ e.kind = .inconsistent)) := by
  obtain ⟨after, hsave, hlater, hstore⟩ := (v.mutates_save name blocks length).steady hsound hsteady
  have htable := Client.table_of_onStores hlater.backend.place hstore
  by_cases hsavable : v.Savable name blocks length client.table
  · right
    obtain ⟨batch, hplan⟩ := savable_iff.1 hsavable
    obtain ⟨stored, previous, stale, -, hstored, -, -, rfl⟩ := savePlan_eq_ok hplan
    rw [Plan.answer, hplan] at hsave
    rw [Plan.batch, hplan] at htable
    obtain ⟨last, hload, -, -⟩ := (v.reads_load name length).steady (hlater.sound hsound)
      (hlater.steady hsteady)
    rw [htable] at hload
    refine ⟨hsavable, after, hsave, ?_⟩
    rw [hload, outcome_give]
    exact loadedIn_saveBatch hsavable.size hfew hstored hsavable.enough
  · left
    refine ⟨hsavable, ?_⟩
    cases hplan : v.savePlan name blocks length client.table with
    | ok answer => exact absurd (savable_iff.2 ⟨answer.2, hplan⟩) hsavable
    | error e =>
      rw [Plan.answer, hplan] at hsave
      rw [Plan.batch, hplan] at htable
      rw [Plan.onStores, Plan.batch, hplan] at hstore
      exact ⟨e, after, hsave, hstore, htable⟩

/-- Blocks that are longer than their places, in a compressed store. -/
theorem save_then_load_longer :
    let v := Volume.ofConfig { Config.standard with blockSize := 4, compress := true }
    let client : Client := ⟨.single ⟨0, 0, true⟩ false, Wire.new, none⟩
    ∃ after, v.save "a" [[1, 2, 3, 4, 5, 6], [7, 8, 9]] 6 client = .ok () after ∧
      outcome (v.load "a" 6 after) = .ok ⟨#[[1, 2, 3, 4], [7, 8]], 6, 4⟩ := by
  intro v client
  have hsound : client.Sound := ⟨fun _ => rfl, rfl⟩
  have hsteady : client.Steady v.keys := ⟨rfl, fun _ _ => rfl⟩
  have hsavable : v.Savable "a" [[1, 2, 3, 4, 5, 6], [7, 8, 9]] 6 client.table := by
    refine ⟨by decide, by decide, fun stored hentry => ?_, fun block hmem => ?_⟩
    · have hnone : v.entryIn "a" client.table = none := by decide +kernel
      rw [hnone] at hentry
      cases hentry
    · have hshort : ∀ block ∈ v.trimmed 6 [[1, 2, 3, 4, 5, 6], [7, 8, 9]],
          block.length ≤ Snappy.longest := by decide
      exact ⟨_, v.codec.encode_eq_ok (hshort block hmem)⟩
  have hfilled : Layout.Filled 6 v.blockSize [[1, 2, 3, 4, 5, 6], [7, 8, 9]] := by
    intro index hindex
    have hcases : index = 0 ∨ index = 1 := by
      have hcount : Layout.blockCount 6 v.blockSize = 2 := by decide
      omega
    rcases hcases with rfl | rfl <;> exact ⟨_, rfl, by decide⟩
  have hfew : Layout.blockCount 6 v.blockSize ≤ Layout.maxBlocks := by decide
  have htrimmed : v.trimmed 6 [[1, 2, 3, 4, 5, 6], [7, 8, 9]] = [[1, 2, 3, 4], [7, 8]] := by decide
  rcases save_then_load v "a" [[1, 2, 3, 4, 5, 6], [7, 8, 9]] hfew hsound hsteady with
    ⟨hnot, -⟩ | ⟨-, after, hsave, hload, -⟩
  · exact absurd hsavable hnot
  · have hloaded := hload hfilled
    rw [htrimmed] at hloaded
    exact ⟨after, hsave, hloaded⟩

/-- Two bytes are saved where four belong: that is accepted, and from then on the file is refused as
damage, while its previous version, which was read before, is gone. -/
theorem save_short_block :
    let v := Volume.ofConfig { Config.standard with blockSize := 4 }
    let client : Client := ⟨.single ⟨0, 0, true⟩ false, Wire.new, none⟩
    let first := finalState (v.save "a" [[65, 65, 65, 65]] 4 client)
    let second := finalState (v.save "a" [[88, 88]] 4 first)
    Layout.blockCount 4 v.blockSize ≤ Layout.maxBlocks ∧
      (outcome (v.load "a" 4 first)).toOption.map (·.blocks) = some #[[65, 65, 65, 65]] ∧
      (outcome (v.save "a" [[88, 88]] 4 first)).isOk ∧
      ((outcome (v.load "a" 4 second)).mapError Error.kind).map (·.blocks) =
        .error .inconsistent := by
  decide +kernel

end Volume

end BlockDir
