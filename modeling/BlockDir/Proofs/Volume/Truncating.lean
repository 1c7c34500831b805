import BlockDir.Proofs.Snappy.Endings
import BlockDir.Proofs.Volume.Fetching
import BlockDir.Proofs.Volume.Saving

/-!
# Blocks that break off

A stored block that lost its end does not go unnoticed. A block that is stored as it is has no more
bytes than its place, so a part of it is too short; a stream tells itself where it ends. Whoever
stored the blocks of a file (`Volume.Stores`), the file is not loaded any more once one of them broke
off (`Volume.load_of_truncated`).
-/

namespace BlockDir

/-- What stands for a block and breaks off is refused, or it is too short for the block. -/
theorem Codec.StandsFor.decode_of_prefix {codec : Codec} {stored front block : Bytes}
    (h : codec.StandsFor stored block) (hfront : front <+: stored) (hne : front ≠ stored) :
    (codec = .plain ∧ codec.decode front = .ok front ∧ front.length < block.length) ∨
      codec = .snappy ∧ ∃ e, codec.decode front = .error e ∧ e.kind = .codec := by
  cases codec with
  | plain =>
    obtain rfl : stored = block := h
    have hlength := hfront.length_le
    have hshort : front.length ≠ stored.length := fun heq => hne (hfront.eq_of_length heq)
    exact .inl ⟨rfl, rfl, by omega⟩
  | snappy =>
    obtain ⟨e, hdecode⟩ := Snappy.decode_of_prefix h hfront hne
    exact .inr ⟨rfl, .undecodable (.snappy e), by rw [decode, hdecode]; rfl, rfl⟩

namespace Volume

variable {v : Volume} {name : String} {blocks : List Bytes} {length : Nat} {table : Table}

/-- The table holds the blocks of a file, each in a form that stands for as much of it as fits its
place. -/
def Stores (v : Volume) (name : String) (blocks : List Bytes) (length : Nat) (table : Table) : Prop :=
  ∀ index < Layout.blockCount length v.blockSize, ∃ block form,
    blocks[index]? = some block ∧ table[Layout.blockKey name index]? = some form ∧
      v.codec.StandsFor form (block.take (Layout.blockLen length v.blockSize index))

/-- What was saved is stored. -/
theorem stores_of_save {client saved : Client} (hsound : client.Sound)
    (htrue : client.wire.Suffers Fault.Truthful) (hfair : client.wire.Suffers Fault.Fair)
    (hsave : v.save name blocks length client = .ok () saved) :
    v.Stores name blocks length (saved.table v.blocksKey) := by
  obtain ⟨batch, hplan, hlater, hstore⟩ :=
    (v.mutates_save name blocks length).stores_of_ok hsound htrue hfair hsave
  obtain ⟨stored, previous, stale, hcount, hstored, -, -, rfl⟩ := savePlan_eq_ok hplan
  obtain ⟨hlength, hforms⟩ := encodeBlocks_eq_ok_iff.1 hstored
  intro index hindex
  have hb : index < blocks.length := by omega
  have hs : index < stored.length := by omega
  refine ⟨blocks[index], stored[index], List.getElem?_eq_getElem hb, ?_,
    Codec.decode_eq_ok_iff.1 (Codec.decode_of_encode (hforms index hb hs))⟩
  rw [Client.table_of_onStores hlater.backend.place hstore, ← List.getElem?_eq_getElem hs]
  exact blockIn_saveBatch_self hs

/-- A form that broke off is no block. -/
theorem decodeBlock_of_truncated (name : String) {index : Nat} {block form front : Bytes}
    (h : v.codec.StandsFor form (block.take (Layout.blockLen length v.blockSize index)))
    (hfront : front <+: form) (hne : front ≠ form) :
    ∃ e, v.decodeBlock name length index front = .error e ∧
      (v.codec = .plain → e.kind = .inconsistent) ∧ (v.codec = .snappy → e.kind = .codec) := by
  rcases h.decode_of_prefix hfront hne with ⟨hplain, hdecode, hshort⟩ | ⟨hsnappy, e, hdecode, hkind⟩
  · rw [List.length_take] at hshort
    refine ⟨.damaged (.shortBlock name index front.length
      (Layout.blockLen length v.blockSize index)), ?_, fun _ => rfl, fun hsnappy => ?_⟩
    · rw [decodeBlock, hdecode]
      exact if_pos (by omega)
    · rw [hplain] at hsnappy
      cases hsnappy
  · refine ⟨e, by rw [decodeBlock, hdecode], fun hplain => ?_, fun _ => hkind⟩
    rw [hsnappy] at hplain
    cases hplain

/-- A form that is whole gives the block, or shows that the block is too short for its place. -/
theorem kind_of_decodeBlock {index : Nat} {block form : Bytes}
    (h : v.codec.StandsFor form (block.take (Layout.blockLen length v.blockSize index))) {e : Error}
    (hfails : v.decodeBlock name length index form = .error e) : e.kind = .inconsistent := by
  rw [decodeBlock, Codec.decode_eq_ok_iff.2 h] at hfails
  dsimp only at hfails
  split at hfails
  · rw [← Except.error.inj hfails]
    rfl
  · cases hfails

/-- Every block of a file that is loaded is decoded. -/
theorem decodeBlock_of_loadedIn {tables : Bytes → Table} {file : LoadedFile}
    (h : v.loadedIn name length tables = .ok file) {index : Nat}
    (hindex : index < Layout.blockCount length v.blockSize) {form : Bytes}
    (hform : v.blockIn name index tables = some form) :
    ∃ block, v.decodeBlock name length index form = .ok block := by
  obtain ⟨stored, blocks, hstored, hblocks, -⟩ := loadedIn_eq_ok_iff.1 h
  obtain ⟨hcount, hfound⟩ := storedIn_eq_ok_iff.1 hstored
  obtain ⟨hlength, heach⟩ := decodeBlocks_eq_ok_iff.1 hblocks
  have hs : index < stored.length := by
    rw [(storedCount_eq_ok hcount).2]
    exact hindex
  have hvalue := hfound index hs
  rw [hform, List.getElem?_eq_getElem hs] at hvalue
  rw [Option.some_inj.1 hvalue]
  exact ⟨_, heach index hs (hlength ▸ hs)⟩

/-- A file that is too large to be loaded is taken for damage. -/
theorem kind_of_storedCount {index : Nat} (hindex : index < Layout.blockCount length v.blockSize)
    {e : Error} (h : v.storedCount name length = .error e) : e.kind = .inconsistent := by
  rcases Nat.eq_zero_or_pos v.blockSize with hzero | hsize
  · rw [hzero, Layout.blockCount, Nat.div_zero] at hindex
    exact absurd hindex (Nat.not_lt_zero _)
  · rw [storedCount, Layout.checkedCount_of_pos hsize] at h
    split at h
    · rw [← Except.error.inj h]
      rfl
    · cases h

/-- A file with a block that is refused is not loaded, and the error is that of a block. -/
theorem loadedIn_of_refused {tables : Bytes → Table} {index count : Nat}
    (hcount : v.storedCount name length = .ok count)
    (hthere : ∀ place < count, (v.blockIn name place tables).isSome) (hindex : index < count)
    (hrefused : ∀ form, v.blockIn name index tables = some form →
      ∃ e, v.decodeBlock name length index form = .error e) :
    ∃ place form e, place < count ∧ v.blockIn name place tables = some form ∧
      v.decodeBlock name length place form = .error e ∧ v.loadedIn name length tables = .error e := by
  obtain ⟨stored, hstored, rfl, heach⟩ := storedIn_of_isSome hcount hthere
  have hfound : ∀ (place : Nat) (hs : place < stored.length),
      v.blockIn name place tables = some stored[place] := by
    intro place hs
    rw [← heach place hs, List.getElem?_eq_getElem hs]
  obtain ⟨_, hblamed⟩ := hrefused _ (hfound index hindex)
  obtain ⟨e, hresult⟩ := decodeBlocks_of_refused hindex hblamed
  obtain ⟨place, hs, hfails⟩ := decodeBlocks_eq_error hresult
  refine ⟨place, stored[place], e, hs, hfound place hs, hfails, ?_⟩
  simp [loadedIn, hstored, hresult, bind, Except.bind]

section

variable {tables : Bytes → Table} {index : Nat} {form front : Bytes}
  (hstores : v.Stores name blocks length table)
  (hform : table[Layout.blockKey name index]? = some form)
  (hfront : front <+: form) (hne : front ≠ form)
  (htable : tables v.blocksKey = table.insert (Layout.blockKey name index) front)

include htable in
/-- What is stored of a file when one block was replaced. -/
theorem blockIn_of_insert (place : Nat) : v.blockIn name place tables =
    if place = index then some front else table[Layout.blockKey name place]? := by
  rw [blockIn, htable, Std.ExtTreeMap.getElem?_insert]
  by_cases hsame : place = index
  · rw [if_pos hsame, hsame, if_pos (Std.LawfulEqCmp.compare_eq_iff_eq.2 rfl)]
  · have hkey : Layout.blockKey name index ≠ Layout.blockKey name place :=
      fun heq => hsame (Layout.blockKey_inj.1 heq).2.symm
    rw [if_neg hsame, if_neg (mt Std.LawfulEqCmp.compare_eq_iff_eq.1 hkey)]

include hstores hform hfront hne htable

/-- Whichever block is refused once one broke off: as they are stored as they are, it is damage; as they
are compressed, it is the one that broke off if the file was found before. -/
theorem kind_of_refused {place : Nat} (hplace : place < Layout.blockCount length v.blockSize)
    {found : Bytes} (hfound : v.blockIn name place tables = some found) {e : Error}
    (hfails : v.decodeBlock name length place found = .error e) :
    (v.codec = .plain → e.kind = .inconsistent) ∧
      (v.codec = .snappy → (v.loadedIn name length fun _ => table).isOk → e.kind = .codec) := by
  rw [blockIn_of_insert htable] at hfound
  obtain ⟨_, _, -, hvalue, hstands⟩ := hstores place hplace
  split at hfound
  · rename_i hsame
    subst hsame
    obtain rfl := Option.some_inj.1 hfound
    obtain rfl := Option.some_inj.1 (hform.symm.trans hvalue)
    obtain ⟨e', hbroken, hplain, hsnappy⟩ := decodeBlock_of_truncated name hstands hfront hne
    obtain rfl := Except.error.inj (hbroken.symm.trans hfails)
    exact ⟨hplain, fun h _ => hsnappy h⟩
  · -- another block is refused, which has been refused all along
    obtain rfl := Option.some_inj.1 (hfound.symm.trans hvalue)
    refine ⟨fun _ => kind_of_decodeBlock hstands hfails, fun _ hbefore => ?_⟩
    cases hloaded : v.loadedIn name length fun _ => table with
    | error _ =>
      rw [hloaded] at hbefore
      cases hbefore
    | ok file =>
      obtain ⟨block, hblock⟩ := decodeBlock_of_loadedIn hloaded hplace hfound
      rw [hblock] at hfails
      cases hfails

/-- A file of which a block broke off is not found in the tables any more. -/
theorem loadedIn_of_truncated {count : Nat} (hcount : v.storedCount name length = .ok count)
    (hindex : index < count) :
    ∃ e, v.loadedIn name length tables = .error e ∧
      (v.codec = .plain → e.kind = .inconsistent) ∧
      (v.codec = .snappy → (v.loadedIn name length fun _ => table).isOk → e.kind = .codec) := by
  obtain ⟨-, rfl⟩ := storedCount_eq_ok hcount
  have hthere : ∀ place < Layout.blockCount length v.blockSize,
      (v.blockIn name place tables).isSome := by
    intro place hplace
    obtain ⟨_, _, -, hvalue, -⟩ := hstores place hplace
    rw [blockIn_of_insert htable]
    split
    · rfl
    · rw [hvalue]
      rfl
  obtain ⟨place, found, e, hplace, hfound, hfails, hload⟩ :=
    loadedIn_of_refused hcount hthere hindex fun found hfound => by
      rw [blockIn_of_insert htable, if_pos rfl] at hfound
      obtain rfl := Option.some_inj.1 hfound
      obtain ⟨_, _, -, hvalue, hstands⟩ := hstores index hindex
      obtain rfl := Option.some_inj.1 (hform.symm.trans hvalue)
      obtain ⟨e, hbroken, -⟩ := decodeBlock_of_truncated name hstands hfront hne
      exact ⟨e, hbroken⟩
  exact ⟨e, hload, kind_of_refused hstores hform hfront hne htable hplace hfound hfails⟩

end

/-- Whatever the blocks and the backend, and whatever strikes a save that answers that all went well:
the blocks are stored. And whoever stored them: once a block lost any bytes at its end, all of them or
only the last one, no load of the file succeeds, through any backend and whatever strikes it, as long
as that shows. If nothing comes between, the file is refused as inconsistent when blocks are stored as
they are; when they are compressed, a file that could be loaded before is refused for its coding. -/
theorem load_of_truncated (v : Volume) (name : String) (blocks : List Bytes) (length : Nat) :
    (∀ client saved : Client, client.Sound → client.wire.Suffers Fault.Truthful →
      client.wire.Suffers Fault.Fair → v.save name blocks length client = .ok () saved →
      v.Stores name blocks length (saved.table v.blocksKey)) ∧
    ∀ table : Table, v.Stores name blocks length table →
      ∀ index < Layout.blockCount length v.blockSize, ∀ form front : Bytes,
      table[Layout.blockKey name index]? = some form → front <+: form → front ≠ form →
      ∀ reader : Client, reader.Sound → reader.wire.Suffers Fault.Overt →
      reader.table v.blocksKey = table.insert (Layout.blockKey name index) front →
      ∃ e after, v.load name length reader = .error e after ∧
        (¬ reader.Hindered v.blocksKey after →
          (v.codec = .plain → e.kind = .inconsistent) ∧
          (v.codec = .snappy → (v.loadedIn name length fun _ => table).isOk → e.kind = .codec)) := by
  refine ⟨fun client saved hsound htrue hfair hsave => stores_of_save hsound htrue hfair hsave, ?_⟩
  intro table hstores index hindex form front hform hfront hne reader hsound hovert htable
  cases hcount : v.storedCount name length with
  | ok count =>
    obtain ⟨-, rfl⟩ := storedCount_eq_ok hcount
    obtain ⟨e, hrefused, hkind⟩ :=
      loadedIn_of_truncated hstores hform hfront hne htable hcount hindex
    obtain ⟨after, -, ⟨-, hload⟩ | ⟨-, hhindered, failed, hload⟩⟩ :=
      v.load_spec name hcount hsound hovert
    · rw [hrefused] at hload
      exact ⟨e, after, hload, fun _ => hkind⟩
    · exact ⟨_, after, hload, fun hclear => absurd hhindered hclear⟩
  | error e =>
    have hload : v.load name length reader = .error e reader := by
      rw [load, loadStored, hcount]
      rfl
    have hnever : v.loadedIn name length (fun _ => table) = .error e := by
      rw [loadedIn, storedIn, hcount]
      rfl
    refine ⟨e, reader, hload, fun _ => ⟨fun _ => kind_of_storedCount hindex hcount, ?_⟩⟩
    rw [hnever]
    exact fun _ hok => absurd hok Bool.false_ne_true

/-- A compressed block of four bytes is cut after its third stored byte, amid a literal. -/
theorem load_of_truncated_literal :
    let v := Volume.ofConfig { Config.standard with blockSize := 4, compress := true }
    let backend : Backend := .single ⟨0, 0, true⟩ false
    let client : Client := ⟨backend, Wire.new, none⟩
    let saved := finalState (v.save "a" [[1, 2, 3, 4], [5]] 5 client)
    let cut := (saved.wire.store 0).put v.blocksKey (Layout.blockKey "a" 0) [4, 12, 1]
    let reader : Client := ⟨backend, Wire.new.setStore 0 cut, none⟩
    (outcome (v.load "a" 5 saved)).isOk ∧
      ∃ e after, v.load "a" 5 reader = .error e after ∧ e.kind = .codec := by
  intro v backend client saved cut reader
  have hsound : client.Sound := ⟨fun _ => rfl, rfl⟩
  have hnone : ∀ sort, client.wire.Suffers sort := Wire.suffers_of_threats_nil rfl
  have hok : v.save "a" [[1, 2, 3, 4], [5]] 5 client = .ok () saved := by
    have hdone : (outcome (v.save "a" [[1, 2, 3, 4], [5]] 5 client)).isOk := by decide +kernel
    cases hsave : v.save "a" [[1, 2, 3, 4], [5]] 5 client with
    | ok _ after => simp only [saved, hsave, finalState]
    | error e after =>
      rw [hsave] at hdone
      cases hdone
  have hstored : (saved.table v.blocksKey)[Layout.blockKey "a" 0]? = some [4, 12, 1, 2, 3, 4] := by
    decide +kernel
  have hcut : reader.table v.blocksKey =
      (saved.table v.blocksKey).insert (Layout.blockKey "a" 0) [4, 12, 1] := by
    have hplace : saved.backend.storeOf v.blocksKey = 0 := by decide +kernel
    have htable : reader.table v.blocksKey = cut.table v.blocksKey :=
      congrArg (·.table v.blocksKey) (Wire.new.store_setStore 0 0 cut)
    rw [htable, Client.table, hplace]
    exact (Store.table_setTable _ _ _ _).trans (if_pos rfl)
  have hclear : ∀ after, ¬ reader.Hindered v.blocksKey after := by
    rintro after (hserves | hstruck)
    · exact hserves rfl
    · exact Nat.not_lt_zero _ hstruck
  have hbefore : (v.loadedIn "a" 5 fun _ => saved.table v.blocksKey).isOk := by decide +kernel
  obtain ⟨hsaves, hrefuses⟩ := load_of_truncated v "a" [[1, 2, 3, 4], [5]] 5
  obtain ⟨e, after, hload, hkind⟩ := hrefuses _
    (hsaves client saved hsound (hnone _) (hnone _) hok) 0 (by decide) _ [4, 12, 1] hstored
    ⟨[2, 3, 4], rfl⟩ (by decide) reader ⟨fun _ => rfl, rfl⟩ (Wire.suffers_of_threats_nil rfl _) hcut
  exact ⟨by decide +kernel, e, after, hload, (hkind (hclear after)).2 rfl hbefore⟩

/-- A compressed file of two blocks was saved with two bytes where four belong in the first one, so it
cannot be loaded. When the second block loses all of its bytes, it is still the first that is blamed,
and the file is refused as inconsistent and not for its coding. -/
theorem truncated_behind_short_block :
    let v := Volume.ofConfig { Config.standard with blockSize := 4, compress := true }
    let backend : Backend := .single ⟨0, 0, true⟩ false
    let client : Client := ⟨backend, Wire.new, none⟩
    let saved := finalState (v.save "a" [[1, 2], [5, 6, 7, 8]] 8 client)
    let cut := (saved.wire.store 0).put v.blocksKey (Layout.blockKey "a" 1) []
    let reader : Client := ⟨backend, Wire.new.setStore 0 cut, none⟩
    (outcome (v.save "a" [[1, 2], [5, 6, 7, 8]] 8 client)).isOk ∧
      (saved.table v.blocksKey)[Layout.blockKey "a" 1]? = some [4, 12, 5, 6, 7, 8] ∧
      ((outcome (v.load "a" 8 reader)).mapError Error.kind).map (·.blocks) = .error .inconsistent := by
  decide +kernel

end Volume

end BlockDir
