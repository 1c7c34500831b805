import BlockDir.Proofs.Volume.Loading

/-!
# Whole files or none

A batched read over links that fail, or that bring a wrong number of replies, answers for each of its
fields in order and lists those that it lost (`Fetched.Aligned`). On top of it a file is loaded whole
(`Volume.Whole`) or not at all, and the error tells a read that was hindered from a table that lacks a
block (`Volume.load_whole_or_fails`).
-/

namespace BlockDir

/-- There is one value for each field. The fields that were lost are listed in order and have no
value, and every other value is what the table says. -/
structure Fetched.Aligned (fetched : Fetched) (table : Table) (fields : List Bytes) : Prop where
  length_eq : fetched.values.length = fields.length
  ascending : fetched.failed.Pairwise (· < ·)
  lost : ∀ index ∈ fetched.failed, fetched.values[index]? = some none
  read : ∀ (index : Nat) (h : index < fields.length), index ∉ fetched.failed →
    fetched.values[index]? = some table[fields[index]]?

theorem Link.Found.aligned {table : Table} {fields : List Bytes} {slots : List Slot}
    {threats : Prop} (h : Found table fields slots threats) :
    (Fetched.ofSlots slots).Aligned table fields := by
  have hvalue : ∀ index : Nat, (Fetched.ofSlots slots).values[index]? =
      slots[index]?.map Option.join := fun index => List.getElem?_map
  obtain ⟨hlength, heach⟩ := List.forall₂_iff_get.1 h.each
  refine ⟨?_, Fetched.failed_ofSlots_ascending slots, fun index hlost => ?_,
    fun index hindex hread => ?_⟩
  · rw [← hlength]
    exact List.length_map _
  · rw [hvalue, Fetched.mem_failed_ofSlots.1 hlost]
    rfl
  · have hslot : index < slots.length := hlength ▸ hindex
    rw [Fetched.mem_failed_ofSlots, List.getElem?_eq_getElem hslot] at hread
    rw [hvalue, List.getElem?_eq_getElem hslot]
    rcases heach index hslot hindex with hnone | hsome
    · exact absurd (congrArg some hnone) hread
    · exact congrArg (fun slot => some slot.join) hsome

/-- Whatever strikes it, as long as that shows, a batched read comes back with its values in place. It
lost something just when it was hindered, unless it was to read nothing. -/
theorem Client.fetch_aligned (key : Bytes) (fields : List Bytes) (interval : Nat) {client : Client}
    (hsound : client.Sound) (hovert : client.wire.Suffers Fault.Overt) :
    ∃ fetched after, fetch key fields interval client = .ok fetched after ∧
      client.Unwritten after ∧ fetched.Aligned (client.table key) fields ∧
      (fetched.failed = [] ↔ fields = [] ∨ ¬ client.Hindered key after) := by
  obtain ⟨slots, after, hok, hunwritten, hfound, hgap⟩ := fetch_slots key fields interval hsound hovert
  refine ⟨_, after, hok, hunwritten, hfound.aligned, ?_⟩
  rw [Fetched.failed_ofSlots_eq_nil_iff]
  constructor
  · intro hnone
    by_contra hboth
    obtain ⟨hsome, hhindered⟩ := not_or.1 hboth
    exact hnone (hgap hsome (not_not.1 hhindered))
  · rintro (rfl | hclear)
    · rw [List.forall₂_nil_right_iff.1 hfound.each]
      exact List.not_mem_nil
    · rw [hfound.whole hclear]
      simp

namespace Volume

variable {v : Volume} {name : String} {length : Nat}

/-- A file in memory is the whole of one in the block table: it has as many blocks as its length calls
for, and each of them holds what fits its place of what the stored block decodes to. -/
structure Whole (v : Volume) (name : String) (length : Nat) (table : Table) (file : LoadedFile) :
    Prop where
  length_eq : file.length = length
  blockSize_eq : file.blockSize = v.blockSize
  size_eq : file.blocks.size = Layout.blockCount length v.blockSize
  block : ∀ index < Layout.blockCount length v.blockSize, ∃ stored decoded,
    table[Layout.blockKey name index]? = some stored ∧ v.codec.decode stored = .ok decoded ∧
      Layout.blockLen length v.blockSize index ≤ decoded.length ∧
      file.blocks[index]? = some (decoded.take (Layout.blockLen length v.blockSize index))

theorem loadedIn_eq_ok_iff_whole {tables : Bytes → Table} {file : LoadedFile}
    (hcount : v.storedCount name length = .ok (Layout.blockCount length v.blockSize)) :
    v.loadedIn name length tables = .ok file ↔
      v.Whole name length (tables v.blocksKey) file := by
  rw [loadedIn_eq_ok_iff]
  constructor
  · rintro ⟨stored, blocks, hstored, hblocks, rfl⟩
    obtain ⟨hsize, hfound⟩ := storedIn_eq_ok_iff.1 hstored
    obtain ⟨hlength, heach⟩ := decodeBlocks_eq_ok_iff.1 hblocks
    rw [hcount, Except.ok.injEq] at hsize
    rw [← hsize] at hfound
    refine ⟨rfl, rfl, by simp [hsize, hlength], fun index hindex => ?_⟩
    have hs : index < stored.length := hsize ▸ hindex
    have hb : index < blocks.length := hlength ▸ hs
    obtain ⟨decoded, hdecode, hlong, hblock⟩ := decodeBlock_eq_ok_iff.1 (heach index hs hb)
    refine ⟨stored[index], decoded, ?_, hdecode, hlong, ?_⟩
    · rw [← List.getElem?_eq_getElem hs]
      exact hfound index hindex
    · rw [List.getElem?_toArray, List.getElem?_eq_getElem hb, hblock]
  · intro hwhole
    have hthere : ∀ index < Layout.blockCount length v.blockSize,
        (v.blockIn name index tables).isSome := by
      intro index hindex
      obtain ⟨value, _, hvalue, -⟩ := hwhole.block index hindex
      simp [blockIn, hvalue]
    obtain ⟨stored, hstored, hsize, hfound⟩ := storedIn_of_isSome hcount hthere
    have hblocks : file.blocks.toList.length = stored.length := hwhole.size_eq.trans hsize.symm
    refine ⟨stored, file.blocks.toList, hstored,
      decodeBlocks_eq_ok_iff.2 ⟨hblocks.symm, fun index hs hb => ?_⟩, ?_⟩
    · have hindex := hsize ▸ hs
      obtain ⟨value, decoded, hvalue, hdecode, hlong, hplace⟩ := hwhole.block index hindex
      have hsame : stored[index] = value := by
        have hplaced := hfound index hindex
        rw [List.getElem?_eq_getElem hs, blockIn, hvalue] at hplaced
        exact Option.some_inj.1 hplaced
      rw [← Array.getElem?_toList, List.getElem?_eq_getElem hb, Option.some_inj] at hplace
      rw [hsame]
      exact decodeBlock_eq_ok_iff.2 ⟨decoded, hdecode, hlong, hplace⟩
    · obtain ⟨blocks, fileLength, blockSize⟩ := file
      obtain rfl : fileLength = length := hwhole.length_eq
      obtain rfl : blockSize = v.blockSize := hwhole.blockSize_eq
      rfl

/-- A file that lacks a block is not put together, and the error lists what it lacks. -/
theorem loadedIn_of_missing {tables : Bytes → Table} {count : Nat}
    (hcount : v.storedCount name length = .ok count)
    (hmissing : ∃ index < count, v.blockIn name index tables = none) :
    ∃ missing, v.loadedIn name length tables =
      .error (.damaged (.missingBlocks name length missing)) := by
  let values := (List.range count).map fun index => v.blockIn name index tables
  have hgaps : (gaps values).isEmpty = false := by
    obtain ⟨index, hindex, hnone⟩ := hmissing
    rw [Bool.eq_false_iff, ne_eq, List.isEmpty_iff]
    refine List.ne_nil_of_mem (a := index) (mem_gaps.2 ?_)
    simp [values, hindex, hnone]
  have hslots : ((List.range count).map fun index => some (v.blockIn name index tables)) =
      values.map some := by
    rw [List.map_map]
    rfl
  have hlength : values.length = count := by simp [values]
  refine ⟨gaps values, ?_⟩
  simp [loadedIn, storedIn, hcount, hslots, Fetched.ofSlots_some, assemble, Fetched.isComplete,
    hlength, hgaps, bind, Except.bind]

/-- A load answers from the tables or, if the file has blocks and something comes between, fails. -/
theorem load_spec (v : Volume) (name : String) {length count : Nat}
    (hcount : v.storedCount name length = .ok count) {client : Client} (hsound : client.Sound)
    (hovert : client.wire.Suffers Fault.Overt) :
    ∃ after, client.Unwritten after ∧
      ((count = 0 ∨ ¬ client.Hindered v.blocksKey after) ∧
          v.load name length client = give (v.loadedIn name length client.table) after ∨
        0 < count ∧ client.Hindered v.blocksKey after ∧ ∃ failed,
          v.load name length client = .error (.link (.lostBlocks name failed count)) after) := by
  obtain ⟨after, hunwritten, ⟨hclear, hok⟩ | ⟨hsome, hhindered, failed, herror⟩⟩ :=
    v.assemble_fetched name length count hsound hovert
  · refine ⟨after, hunwritten, .inl ⟨hclear, ?_⟩⟩
    have hstored : v.loadStored name length client =
        give (v.storedIn name length client.table) after := by
      rw [loadStored, storedIn, hcount]
      exact hok
    rw [load, loadedIn]
    cases hfound : v.storedIn name length client.table with
    | error e => simp [bind, EStateM.bind, Except.bind, hstored, hfound]
    | ok stored =>
      cases hblocks : v.decodeBlocks name length stored with
      | error e => simp [bind, EStateM.bind, Except.bind, hstored, hfound, hblocks]
      | ok blocks =>
        simp [bind, EStateM.bind, Except.bind, hstored, hfound, hblocks, pure, EStateM.pure,
          Except.pure]
  · refine ⟨after, hunwritten, .inr ⟨hsome, hhindered, failed, ?_⟩⟩
    have hstored : v.loadStored name length client =
        .error (.link (.lostBlocks name failed count)) after := by
      rw [loadStored, hcount]
      exact herror
    simp [load, bind, EStateM.bind, hstored]

/-- A load is whole or it fails. Through any backend, and whatever strikes the calls as long as each of
them fails, brings a wrong number of replies or tells the truth: a batched read comes back with its
values in place, and a load answers the whole file just when nothing came between and the block table
has all of it. If something did, the load fails in transport; otherwise, if a block is absent, it fails
for inconsistency. A file of no blocks asks for nothing. -/
theorem load_whole_or_fails (v : Volume) (name : String) {length : Nat} (hsize : 0 < v.blockSize)
    (hfew : Layout.blockCount length v.blockSize ≤ Layout.maxBlocks) {client : Client}
    (hsound : client.Sound) (hovert : client.wire.Suffers Fault.Overt) :
    (∀ key fields interval, ∃ fetched after,
      Client.fetch key fields interval client = .ok fetched after ∧ client.Unwritten after ∧
        fetched.Aligned (client.table key) fields ∧
        (fetched.failed = [] ↔ fields = [] ∨ ¬ client.Hindered key after)) ∧
    let count := Layout.blockCount length v.blockSize
    let result := v.load name length client
    let after := finalState result
    client.Unwritten after ∧
      (∀ file, outcome result = .ok file ↔ (count = 0 ∨ ¬ client.Hindered v.blocksKey after) ∧
        v.Whole name length (client.table v.blocksKey) file) ∧
      (0 < count → client.Hindered v.blocksKey after →
        ∃ e, outcome result = .error e ∧ e.kind = .transport) ∧
      (¬ client.Hindered v.blocksKey after →
        (∃ index < count, (client.table v.blocksKey)[Layout.blockKey name index]? = none) →
        ∃ e, outcome result = .error e ∧ e.kind = .inconsistent) := by
  refine ⟨fun key fields interval => Client.fetch_aligned key fields interval hsound hovert, ?_⟩
  intro count result after
  have hcount : v.storedCount name length = .ok count := storedCount_eq_ok_iff.2 ⟨hsize, rfl, hfew⟩
  have hwhole : ∀ file, v.loadedIn name length client.table = .ok file ↔
      v.Whole name length (client.table v.blocksKey) file :=
    fun _ => loadedIn_eq_ok_iff_whole hcount
  obtain ⟨last, hunwritten, ⟨hclear, hok⟩ | ⟨hsome, hhindered, failed, herror⟩⟩ :=
    v.load_spec name hcount hsound hovert
  · have hafter : after = last := by simp only [after, result, hok, finalState_give]
    have houtcome : outcome result = v.loadedIn name length client.table := by
      simp only [result, hok, outcome_give]
    rw [hafter, houtcome]
    refine ⟨hunwritten, fun file => ?_, fun hsome hhindered => ?_, fun _ hmissing => ?_⟩
    · rw [hwhole file]
      exact (and_iff_right hclear).symm
    · exact absurd hhindered (hclear.resolve_left (Nat.ne_of_gt hsome))
    · obtain ⟨missing, hload⟩ := loadedIn_of_missing hcount hmissing
      exact ⟨_, hload, rfl⟩
  · have hafter : after = last := by simp only [after, result, herror, finalState]
    have houtcome : outcome result = .error (.link (.lostBlocks name failed count)) := by
      simp only [result, herror, outcome]
    rw [hafter, houtcome]
    refine ⟨hunwritten, fun file => ⟨fun h => (nomatch h), ?_⟩, fun _ _ => ⟨_, rfl, rfl⟩,
      fun hclear => absurd hhindered hclear⟩
    rintro ⟨hnone | hclear, -⟩
    · exact absurd hnone (Nat.ne_of_gt hsome)
    · exact absurd hhindered hclear

/-- Two blocks are read through a pool in two round trips, and the second brings a reply too few. When
the file is loaded again, nothing strikes. -/
theorem load_whole_or_fails_short :
    let v := Volume.ofConfig { Config.standard with blockSize := 2, syncInterval := 1 }
    let store := ((∅ : Store).put v.blocksKey (Layout.blockKey "a" 0) [1, 2]).put
      v.blocksKey (Layout.blockKey "a" 1) [3]
    let wire := (Wire.new.setStore 0 store).arm ⟨.send .pipeline, Fault.short, 2⟩
    let client : Client := ⟨.pooled ⟨.standard, 0, [], 0, false⟩, wire, none⟩
    let after := finalState (v.load "a" 3 client)
    (∃ e, outcome (v.load "a" 3 client) = .error e ∧ e.kind = .transport) ∧
      ∃ file, outcome (v.load "a" 3 after) = .ok file ∧
        v.Whole "a" 3 (after.table v.blocksKey) file := by
  intro v store wire client after
  have hsound : client.Sound := by
    refine ⟨⟨fun _ hmem => absurd hmem List.not_mem_nil, ?_, Nat.zero_le _⟩, rfl⟩
    decide
  have hovert : client.wire.Suffers Fault.Overt := by
    have hnone : (Wire.new.setStore 0 store).Suffers Fault.Overt :=
      Wire.suffers_of_threats_nil rfl _
    refine hnone.arm ⟨fun heq => (nomatch heq), fun _ replies hsome => ?_⟩
    have hpos := List.length_pos_iff.2 hsome
    rw [List.length_dropLast]
    omega
  have hfew : Layout.blockCount 3 v.blockSize ≤ Layout.maxBlocks := by decide
  have hstruck : after.wire.waiting < client.wire.waiting := by decide +kernel
  obtain ⟨-, hunwritten, -, hfails, -⟩ :=
    load_whole_or_fails v "a" (by decide) hfew hsound hovert
  obtain ⟨-, -, hok, -, -⟩ := load_whole_or_fails v "a" (by decide) hfew
    (hunwritten.toLater.sound hsound) (hunwritten.toLater.suffers hovert)
  refine ⟨hfails (by decide) (.inr hstruck), ?_⟩
  have hagain : (outcome (v.load "a" 3 after)).isOk := by decide +kernel
  cases hload : outcome (v.load "a" 3 after) with
  | error e =>
    rw [hload] at hagain
    cases hagain
  | ok file => exact ⟨file, rfl, ((hok file).1 hload).2⟩

end Volume

end BlockDir
