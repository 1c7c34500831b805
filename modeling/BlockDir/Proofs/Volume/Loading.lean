import BlockDir.Proofs.Layout.Blocks
import BlockDir.Proofs.Volume.Effects

/-!
# Which files can be loaded

A file is loaded from its catalog entry and its blocks alone. The name matters only to errors, so a
file whose blocks were copied under another name is loaded from there as the same file.
-/

namespace BlockDir

/-- A row of actions succeeds if each of them does. -/
theorem mapM_eq_ok_iff {α β : Type} {f : α → Except Error β} {as : List α} {bs : List β} :
    as.mapM f = .ok bs ↔ List.Forall₂ (fun a b => f a = .ok b) as bs := by
  induction as generalizing bs with
  | nil =>
    simp [pure, Except.pure, eq_comm]
  | cons a rest ih =>
    rw [List.mapM_cons, List.forall₂_cons_left_iff]
    cases ha : f a with
    | error e => simp [bind, Except.bind]
    | ok b =>
      cases hrest : rest.mapM f with
      | error e => simp [bind, Except.bind, ← ih, hrest]
      | ok more => simp [bind, Except.bind, pure, Except.pure, ← ih, hrest, eq_comm]

/-- A row of actions fails as one of them does. -/
theorem mapM_eq_error {α β : Type} {f : α → Except Error β} {as : List α} {e : Error}
    (h : as.mapM f = .error e) : ∃ a ∈ as, f a = .error e := by
  induction as with
  | nil => simp [pure, Except.pure] at h
  | cons a rest ih =>
    rw [List.mapM_cons] at h
    cases ha : f a with
    | error e' =>
      obtain rfl : e' = e := by simpa [ha, bind, Except.bind] using h
      exact ⟨a, List.mem_cons_self, ha⟩
    | ok b =>
      cases hrest : rest.mapM f with
      | error e' =>
        obtain rfl : e' = e := by simpa [ha, hrest, bind, Except.bind] using h
        obtain ⟨found, hmem, hfound⟩ := ih hrest
        exact ⟨found, List.mem_cons_of_mem _ hmem, hfound⟩
      | ok more => simp [ha, hrest, bind, Except.bind, pure, Except.pure] at h

theorem forall₂_set {α β : Type} {R : α → β → Prop} {as : List α} {bs : List β}
    (h : List.Forall₂ R as bs) (number : Nat) {a : α} {b : β} (hab : R a b) :
    List.Forall₂ R (as.set number a) (bs.set number b) := by
  induction h generalizing number with
  | nil => exact .nil
  | cons hfirst hrest ih =>
    cases number with
    | zero => exact .cons hab hrest
    | succ number => exact .cons hfirst (ih number)

theorem mem_gaps {α : Type} {values : List (Option α)} {index : Nat} :
    index ∈ gaps values ↔ values[index]? = some none :=
  mem_indices_isNone

theorem gaps_eq_nil_iff {α : Type} {values : List (Option α)} :
    gaps values = [] ↔ ∃ found : List α, values = found.map some := by
  simp only [List.eq_nil_iff_forall_not_mem, mem_gaps]
  constructor
  · intro h
    have hsome : none ∉ values := by
      rw [List.mem_iff_getElem?]
      rintro ⟨index, hnone⟩
      exact h index hnone
    clear h
    induction values with
    | nil => exact ⟨[], rfl⟩
    | cons value rest ih =>
      obtain ⟨found, rfl⟩ := ih fun hmem => hsome (List.mem_cons_of_mem _ hmem)
      cases value with
      | none => exact absurd List.mem_cons_self hsome
      | some a => exact ⟨a :: found, rfl⟩
  · rintro ⟨found, rfl⟩ index hnone
    simp at hnone

namespace Volume

variable {v : Volume} {name : String} {tables : Bytes → Table}

/-- Blocks are put together only if every one of them was read and was there. -/
theorem assemble_eq_ok_iff {length count : Nat} {slots : List Slot} {stored : List Bytes} :
    assemble name length count (Fetched.ofSlots slots) = .ok stored ↔
      stored.length = count ∧ slots = stored.map fun value => some (some value) := by
  constructor
  · intro h
    rw [assemble] at h
    split at h
    · cases h
    · rename_i hcomplete
      have hfailed : (Fetched.ofSlots slots).failed = [] := by
        simpa [Fetched.isComplete] using hcomplete
      obtain ⟨values, rfl⟩ := gaps_eq_nil_iff.1 hfailed
      rw [Fetched.ofSlots_some] at h
      dsimp only at h
      split at h
      · cases h
      · rename_i hcount
        split at h
        · rename_i hgaps
          obtain ⟨found, rfl⟩ := gaps_eq_nil_iff.1 (List.isEmpty_iff.1 hgaps)
          have hid : (id ∘ some : Bytes → Option Bytes) = some := rfl
          rw [List.filterMap_map, hid, List.filterMap_some] at h
          obtain rfl := Except.ok.inj h
          exact ⟨by simpa using hcount, by rw [List.map_map]; rfl⟩
        · cases h
  · rintro ⟨rfl, rfl⟩
    have hslots : (stored.map fun value => some (some value)) = (stored.map some).map some := by
      rw [List.map_map]
      rfl
    have hgaps := gaps_eq_nil_iff.2 ⟨stored, rfl⟩
    rw [hslots, Fetched.ofSlots_some, assemble]
    simp [Fetched.isComplete, hgaps, List.filterMap_map]

/-- Blocks are put together only if there are as many as were asked for. -/
theorem length_of_assemble {length count : Nat} {fetched : Fetched} {stored : List Bytes}
    (h : assemble name length count fetched = .ok stored) :
    stored.length = count := by
  rw [assemble] at h
  split at h
  · cases h
  · split at h
    · cases h
    · rename_i hcount
      dsimp only at h
      split at h
      · rename_i hgaps
        obtain ⟨found, hfound⟩ := gaps_eq_nil_iff.1 (List.isEmpty_iff.1 hgaps)
        rw [hfound, List.filterMap_map, Except.ok.injEq] at h
        rw [hfound, List.length_map, ne_eq, not_not] at hcount
        have hid : (id ∘ some : Bytes → Option Bytes) = some := rfl
        rw [hid, List.filterMap_some] at h
        rw [← h, hcount]
      · cases h

/-- Whatever the client went through, blocks that were fetched are as many as the length calls for. -/
theorem length_of_loadStored {length : Nat} {client after : Client} {stored : List Bytes}
    (h : v.loadStored name length client = .ok stored after) :
    v.storedCount name length = .ok stored.length := by
  obtain ⟨count, middle, hcount, h⟩ := run_bind_eq_ok.1 h
  obtain ⟨hok, rfl⟩ := give_eq_ok.1 hcount
  obtain ⟨fetched, last, -, h⟩ := run_bind_eq_ok.1 h
  obtain ⟨hassemble, -⟩ := give_eq_ok.1 h
  rw [hok, length_of_assemble hassemble]

/-- The stored forms of a file are found if there are as many of them as its length says. -/
theorem storedIn_eq_ok_iff {length : Nat} {stored : List Bytes} :
    v.storedIn name length tables = .ok stored ↔
      v.storedCount name length = .ok stored.length ∧
        ∀ index < stored.length, v.blockIn name index tables = stored[index]? := by
  cases hcount : v.storedCount name length with
  | error e => simp [storedIn, hcount, bind, Except.bind]
  | ok count =>
    simp only [storedIn, hcount, bind, Except.bind, assemble_eq_ok_iff, Except.ok.injEq]
    constructor
    · rintro ⟨rfl, hslots⟩
      refine ⟨rfl, fun index hindex => ?_⟩
      have hget := congrArg (·[index]?) hslots
      simpa [hindex] using hget
    · rintro ⟨rfl, hblocks⟩
      refine ⟨rfl, List.ext_getElem (by simp) fun index hindex hindex' => ?_⟩
      rw [List.length_map] at hindex'
      simp [hblocks index hindex', hindex']

/-- A file is loaded if all the blocks that it calls for are there. -/
theorem storedIn_of_isSome {name : String} {length count : Nat}
    (hcount : v.storedCount name length = .ok count)
    (hblocks : ∀ index < count, (v.blockIn name index tables).isSome) :
    ∃ stored, v.storedIn name length tables = .ok stored ∧ stored.length = count ∧
      ∀ index < count, stored[index]? = v.blockIn name index tables := by
  have hlist : ∃ stored : List Bytes, stored.length = count ∧
      ∀ index < count, stored[index]? = v.blockIn name index tables := by
    refine ⟨(List.range count).map fun index => (v.blockIn name index tables).getD [], by simp,
      fun index hindex => ?_⟩
    obtain ⟨block, hblock⟩ := Option.isSome_iff_exists.1 (hblocks index hindex)
    simp [hindex, hblock]
  obtain ⟨stored, rfl, hstored⟩ := hlist
  exact ⟨stored, storedIn_eq_ok_iff.2 ⟨hcount, fun index hindex => (hstored index hindex).symm⟩, rfl,
    hstored⟩

/-- A block is what fits its place of what its stored form decodes to, which must fill the place. -/
theorem decodeBlock_eq_ok_iff {length index : Nat} {stored block : Bytes} :
    v.decodeBlock name length index stored = .ok block ↔
      ∃ found, v.codec.decode stored = .ok found ∧
        Layout.blockLen length v.blockSize index ≤ found.length ∧
        block = found.take (Layout.blockLen length v.blockSize index) := by
  rw [decodeBlock]
  cases hdecode : v.codec.decode stored with
  | error e => simp
  | ok found =>
    dsimp only
    split
    · rename_i hshort
      simp [Nat.not_le.2 hshort]
    · rename_i hlong
      simp [Nat.not_lt.1 hlong, eq_comm]

theorem decodeBlock_ok_of_ok {other : String} {length index : Nat} {stored block : Bytes}
    (h : v.decodeBlock name length index stored = .ok block) :
    v.decodeBlock other length index stored = .ok block :=
  decodeBlock_eq_ok_iff.2 (decodeBlock_eq_ok_iff.1 h)

/-- Blocks are decoded one by one, each at its place. -/
theorem decodeBlocks_eq_ok_iff {length : Nat} {stored blocks : List Bytes} :
    v.decodeBlocks name length stored = .ok blocks ↔ stored.length = blocks.length ∧
      ∀ (index : Nat) (hs : index < stored.length) (hb : index < blocks.length),
        v.decodeBlock name length index stored[index] = .ok blocks[index] := by
  rw [decodeBlocks, mapM_eq_ok_iff, List.forall₂_iff_get]
  simp

/-- Blocks are encoded one by one, each trimmed to its place. -/
theorem encodeBlocks_eq_ok_iff {length count : Nat} {blocks stored : List Bytes} :
    v.encodeBlocks length count blocks = .ok stored ↔ min count blocks.length = stored.length ∧
      ∀ (index : Nat) (hb : index < blocks.length) (hs : index < stored.length),
        v.codec.encode (blocks[index].take (Layout.blockLen length v.blockSize index)) =
          .ok stored[index] := by
  rw [encodeBlocks, mapM_eq_ok_iff, List.forall₂_iff_get]
  simp only [List.length_zipIdx, List.length_take, List.get_eq_getElem, List.getElem_zipIdx,
    List.getElem_take, Nat.zero_add]
  constructor
  · rintro ⟨hlength, hforms⟩
    exact ⟨hlength, fun index hb hs => hforms index (hlength ▸ hs) hs⟩
  · rintro ⟨hlength, hforms⟩
    exact ⟨hlength, fun index hb hs => hforms index (by omega) hs⟩

/-- What decodes under one name decodes under another. -/
theorem decodeBlocks_ok_of_ok {other : String} {length : Nat} {stored blocks : List Bytes}
    (h : v.decodeBlocks name length stored = .ok blocks) :
    v.decodeBlocks other length stored = .ok blocks := by
  obtain ⟨hlength, hblocks⟩ := decodeBlocks_eq_ok_iff.1 h
  exact decodeBlocks_eq_ok_iff.2
    ⟨hlength, fun index hs hb => decodeBlock_ok_of_ok (hblocks index hs hb)⟩

/-- A block that was decoded has the length of its place. -/
theorem length_of_decodeBlock {length index : Nat} {stored block : Bytes}
    (h : v.decodeBlock name length index stored = .ok block) :
    block.length = Layout.blockLen length v.blockSize index := by
  obtain ⟨found, -, hlong, rfl⟩ := decodeBlock_eq_ok_iff.1 h
  exact List.length_take_of_le hlong

/-- Files of up to `maxBlocks` blocks are counted. -/
theorem storedCount_eq_ok_iff {length count : Nat} :
    v.storedCount name length = .ok count ↔
      0 < v.blockSize ∧ count = Layout.blockCount length v.blockSize ∧ count ≤ Layout.maxBlocks :=
  Layout.checkedCount_eq_ok_iff

theorem storedCount_ok_of_ok {other : String} {length count : Nat}
    (h : v.storedCount name length = .ok count) : v.storedCount other length = .ok count :=
  storedCount_eq_ok_iff.2 (storedCount_eq_ok_iff.1 h)

theorem storedCount_eq_ok {length count : Nat} (h : v.storedCount name length = .ok count) :
    0 < v.blockSize ∧ count = Layout.blockCount length v.blockSize := by
  obtain ⟨hsize, hcount, -⟩ := storedCount_eq_ok_iff.1 h
  exact ⟨hsize, hcount⟩

theorem storedCount_pos {length count : Nat} (h : v.storedCount name length = .ok count)
    (hlength : 0 < length) : 0 < count := by
  obtain ⟨hsize, rfl⟩ := storedCount_eq_ok h
  exact Layout.blockCount_pos hsize hlength

theorem reads_load_empty (v : Volume) (name : String) :
    Client.Reads [] (v.load name 0) (v.loadedIn name 0) := by
  have hstored : Client.Reads [] (v.loadStored name 0) (v.storedIn name 0) := by
    cases hcount : v.storedCount name 0 with
    | error e =>
      have hload : v.loadStored name 0 = throw e := by
        rw [loadStored, hcount]
        rfl
      have hfound : v.storedIn name 0 = fun _ => .error e := by
        funext tables
        simp [storedIn, hcount, bind, Except.bind]
      rw [hload, hfound]
      exact Client.reads_throw e
    | ok count =>
      have hzero : count = 0 := by
        rw [(storedCount_eq_ok hcount).2, Layout.blockCount_zero]
      have hread : Client.Reads [] _ _ := v.reads_blocks name 0 count (.inl hzero)
      have hfound : v.storedIn name 0 = fun tables => assemble name 0 count (Fetched.ofSlots
          ((List.range count).map fun index => some (v.blockIn name index tables))) := by
        funext tables
        simp [storedIn, hcount, bind, Except.bind]
      have hload : v.loadStored name 0 = (do
          let fields := (List.range count).map (Layout.blockKey name)
          give (assemble name 0 count (← Client.fetch v.blocksKey fields v.syncInterval))) := by
        rw [loadStored, hcount]
        rfl
      rw [hload, hfound]
      exact hread
  exact hstored.bind fun stored =>
    (Client.reads_give (v.decodeBlocks name 0 stored)).bind fun blocks =>
      Client.reads_pure (LoadedFile.mk blocks.toArray 0 v.blockSize)

theorem loadedIn_eq_ok_iff {length : Nat} {file : LoadedFile} :
    v.loadedIn name length tables = .ok file ↔
      ∃ stored blocks, v.storedIn name length tables = .ok stored ∧
        v.decodeBlocks name length stored = .ok blocks ∧
        file = ⟨blocks.toArray, length, v.blockSize⟩ := by
  unfold loadedIn
  cases hstored : v.storedIn name length tables with
  | error e => simp [bind, Except.bind]
  | ok stored =>
    cases hblocks : v.decodeBlocks name length stored with
    | error e => simp [bind, Except.bind, hblocks]
    | ok blocks => simp [bind, Except.bind, hblocks, pure, Except.pure, eq_comm]

theorem lengthIn_eq_some_iff {length : Nat} :
    v.lengthIn name tables = .ok (some length) ↔
      ∃ stored, v.entryIn name tables = some stored ∧ stored.length = Layout.lengthBytes ∧
        stored.toNat = length := by
  unfold lengthIn
  cases hentry : v.entryIn name tables with
  | none => simp [pure, Except.pure]
  | some stored =>
    cases hdecode : Layout.decodeLength name stored with
    | error e =>
      have hwidth : ¬ (stored.length = Layout.lengthBytes ∧ stored.toNat = length) := by
        rw [← Layout.decodeLength_eq_ok_iff name, hdecode]
        simp
      simp [bind, Except.bind, hdecode, hwidth]
    | ok n =>
      obtain ⟨hwidth, rfl⟩ := (Layout.decodeLength_eq_ok_iff name).1 hdecode
      simp [bind, Except.bind, hdecode, pure, Except.pure, hwidth]

/-- A file whose length can be stored has the blocks with which it was saved. -/
theorem storedIn_saveBatch (hkeys : v.catalogKey ≠ v.blocksKey) {length : Nat} {stored : List Bytes}
    (hfits : (Layout.encodeLength length).toNat = length)
    (hcount : v.storedCount name length = .ok stored.length) (stale : Nat) :
    let after := Batch.onTables (v.saveBatch name stored length stale) tables
    v.lengthIn name after = .ok (some length) ∧ v.storedIn name length after = .ok stored := by
  intro after
  constructor
  · refine lengthIn_eq_some_iff.2
      ⟨Layout.encodeLength length, ?_, Layout.length_encodeLength _, hfits⟩
    rw [entryIn_saveBatch hkeys, if_pos rfl]
  · refine storedIn_eq_ok_iff.2 ⟨hcount, fun index hindex => ?_⟩
    rw [blockIn_saveBatch hkeys, if_pos ⟨rfl, by omega⟩]

end Volume

end BlockDir
