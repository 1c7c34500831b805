import BlockDir.Proofs.Cursor.Contents
import BlockDir.Proofs.Snappy.RoundTrip
import BlockDir.Proofs.Volume.Loading

/-!
# Tables that hold files

The tables hold a map from names to contents if every entry and every block is what the map says,
and there are no other fields (`Volume.Holds`). Such tables are read as the map says, and saving,
deleting and moving files change them as the map changes.
-/

namespace BlockDir

/-- Files by name. -/
abbrev Files := Std.ExtTreeMap String Bytes

/-- A volume whose blocks can be cut and stored, with two tables. -/
structure Volume.Proper (v : Volume) : Prop where
  blockSize_pos : 0 < v.blockSize
  blockSize_le : v.blockSize ≤ Snappy.longest
  keys_ne : v.catalogKey ≠ v.blocksKey

theorem Volume.proper_ofConfig {c : Config} (h : c.validate = .ok ()) :
    (Volume.ofConfig c).Proper := by
  obtain ⟨hpos, hsize, -, -, -, hkeys⟩ := Config.validate_eq_ok_iff.1 h
  refine ⟨hpos, Nat.le_trans hsize ?_, fun heq => hkeys (Utf8.encode_injective heq)⟩
  decide

namespace Volume

variable {v : Volume} {tables : Bytes → Table} {files : Files}

/-- The stored forms of the blocks of `content`. -/
def storedForms (v : Volume) (content : Bytes) : List Bytes :=
  (chunks v.blockSize content).map v.codec.form

theorem length_storedForms (hv : v.Proper) (content : Bytes) :
    (v.storedForms content).length = Layout.blockCount content.length v.blockSize := by
  rw [storedForms, List.length_map, length_chunks hv.blockSize_pos]

/-- The tables hold exactly these files. -/
structure Holds (v : Volume) (tables : Bytes → Table) (files : Files) : Prop where
  entry : ∀ name, v.entryIn name tables =
    files[name]?.map fun content => Layout.encodeLength (List.length content)
  block : ∀ name index, v.blockIn name index tables =
    files[name]?.bind fun content => (v.storedForms content)[index]?
  entries : ∀ field ∈ tables v.catalogKey, ∃ name, field = Utf8.encode name
  blocks : ∀ field ∈ tables v.blocksKey, ∃ name index, field = Layout.blockKey name index
  short : ∀ (name : String) (content : Bytes), files[name]? = some content →
    content.length < 2 ^ 64

theorem holds_empty (h : ∀ key, tables key = ∅) : v.Holds tables ∅ where
  entry name := by simp [entryIn, h]
  block name index := by simp [blockIn, h]
  entries field hmem := by simp [h] at hmem
  blocks field hmem := by simp [h] at hmem
  short name content hfile := by simp at hfile

/-- A batch for one file adds no field that is neither an entry nor a block. -/
theorem fields_onTables (hv : v.Proper) (batch : Batch) (name : String)
    (howns : ∀ w ∈ batch, ∀ key field, w.Touches key field → v.Owns name key field)
    (h : v.Holds tables files) :
    (∀ field ∈ Batch.onTables batch tables v.catalogKey, ∃ name, field = Utf8.encode name) ∧
      ∀ field ∈ Batch.onTables batch tables v.blocksKey,
        ∃ name index, field = Layout.blockKey name index := by
  constructor
  · intro field hmem
    rcases owns_or_mem_onTables howns hmem with (⟨-, hfield⟩ | ⟨hkey, -⟩) | hmem
    · exact ⟨name, hfield⟩
    · exact absurd hkey hv.keys_ne
    · exact h.entries field hmem
  · intro field hmem
    rcases owns_or_mem_onTables howns hmem with (⟨hkey, -⟩ | ⟨-, index, hfield⟩) | hmem
    · exact absurd hkey.symm hv.keys_ne
    · exact ⟨name, index, hfield⟩
    · exact h.blocks field hmem

/-- Saving a file over one of at most `stale` blocks. -/
theorem Holds.save (hv : v.Proper) (h : v.Holds tables files) (name : String) {content : Bytes}
    (hshort : content.length < 2 ^ 64) {stale : Nat}
    (hstale : ∀ old, files[name]? = some old → (v.storedForms old).length ≤ stale) :
    v.Holds (Batch.onTables
      (v.saveBatch name (v.storedForms content) content.length stale) tables)
      (files.insert name content) := by
  obtain ⟨hentries, hblocks⟩ := fields_onTables hv
    (v.saveBatch name (v.storedForms content) content.length stale) name
    (fun _ hmem _ _ => owns_of_mem_saveBatch hmem) h
  refine ⟨fun other => ?_, fun other index => ?_, hentries, hblocks, fun other old hfile => ?_⟩
  · rw [entryIn_saveBatch hv.keys_ne, Std.ExtTreeMap.getElem?_insert, h.entry]
    simp only [Std.LawfulEqCmp.compare_eq_iff_eq, eq_comm (a := other)]
    split <;> rfl
  · rw [blockIn_saveBatch hv.keys_ne, Std.ExtTreeMap.getElem?_insert, h.block]
    simp only [Std.LawfulEqCmp.compare_eq_iff_eq]
    by_cases hname : other = name
    · subst hname
      by_cases hindex : index < max (v.storedForms content).length stale
      · simp [hindex]
      · have hnew : (v.storedForms content).length ≤ index := by omega
        have hold : ∀ old, files[other]? = some old → (v.storedForms old)[index]? = none := by
          intro old hfile
          have hle := hstale old hfile
          exact List.getElem?_eq_none (by omega)
        rw [if_neg (fun hand => hindex hand.2)]
        cases hfile : files[other]? with
        | none => simp [hnew]
        | some old => simp [hnew, hold old hfile]
    · simp [hname, Ne.symm hname]
  · rw [Std.ExtTreeMap.getElem?_insert] at hfile
    split at hfile
    · rw [← Option.some.inj hfile]
      exact hshort
    · exact h.short other old hfile

/-- Deleting a file of at most `count` blocks. -/
theorem Holds.delete (hv : v.Proper) (h : v.Holds tables files) (name : String) {count : Nat}
    (hcount : ∀ old, files[name]? = some old → (v.storedForms old).length ≤ count) :
    v.Holds (Batch.onTables (v.deleteBatch name count) tables) (files.erase name) := by
  obtain ⟨hentries, hblocks⟩ := fields_onTables hv (v.deleteBatch name count) name
    (fun _ hmem _ _ => owns_of_mem_deleteBatch hmem) h
  refine ⟨fun other => ?_, fun other index => ?_, hentries, hblocks, fun other old hfile => ?_⟩
  · rw [entryIn_deleteBatch hv.keys_ne, Std.ExtTreeMap.getElem?_erase, h.entry]
    simp only [Std.LawfulEqCmp.compare_eq_iff_eq, eq_comm (a := other)]
    split <;> rfl
  · rw [blockIn_deleteBatch hv.keys_ne, Std.ExtTreeMap.getElem?_erase, h.block]
    simp only [Std.LawfulEqCmp.compare_eq_iff_eq]
    by_cases hname : other = name
    · subst hname
      by_cases hindex : index < count
      · simp [hindex]
      · rw [if_neg (fun hand => hindex hand.2)]
        cases hfile : files[other]? with
        | none => simp
        | some old =>
          have hle := hcount old hfile
          have hnone : (v.storedForms old)[index]? = none := List.getElem?_eq_none (by omega)
          simp [hnone]
    · simp [hname, Ne.symm hname]
  · rw [Std.ExtTreeMap.getElem?_erase] at hfile
    split at hfile
    · cases hfile
    · exact h.short other old hfile

/-- Moving a file over one of at most `stale` blocks. -/
theorem Holds.rename (hv : v.Proper) (h : v.Holds tables files) {source dest : String}
    (hne : source ≠ dest) {content : Bytes} (hsource : files[source]? = some content) {stale : Nat}
    (hstale : ∀ old, files[dest]? = some old → (v.storedForms old).length ≤ stale) :
    v.Holds (Batch.onTables
      (v.renameBatch source dest (v.storedForms content) content.length stale) tables)
      ((files.insert dest content).erase source) := by
  have hsaved := h.save hv dest (h.short source content hsource) hstale
  rw [renameBatch, Batch.onTables_append]
  refine hsaved.delete hv source fun old hfile => ?_
  rw [Std.ExtTreeMap.getElem?_insert] at hfile
  simp only [Std.LawfulEqCmp.compare_eq_iff_eq, Ne.symm hne, if_false, hsource,
    Option.some.injEq] at hfile
  rw [hfile]

theorem Holds.lengthIn (h : v.Holds tables files) (name : String) :
    v.lengthIn name tables = .ok (files[name]?.map List.length) := by
  rw [Volume.lengthIn, h.entry]
  cases hfile : files[name]? with
  | none => rfl
  | some content =>
    have hlength := Layout.decodeLength_encodeLength name (h.short name content hfile)
    simp [hlength, bind, Except.bind, pure, Except.pure]

theorem Holds.storedIn (hv : v.Proper) (h : v.Holds tables files) {name : String} {content : Bytes}
    (hfile : files[name]? = some content) :
    v.storedIn name content.length tables =
      (v.storedCount name content.length).map fun _ => v.storedForms content := by
  cases hcount : v.storedCount name content.length with
  | error e => simp [Volume.storedIn, hcount, bind, Except.bind, Except.map]
  | ok count =>
    refine storedIn_eq_ok_iff.2 ⟨?_, fun index _ => ?_⟩
    · rw [hcount, (storedCount_eq_ok hcount).2, length_storedForms hv]
    · rw [h.block, hfile]
      rfl

/-- A stored block is taken at any place that it fills, and cut there. -/
theorem decodeBlock_form_eq_ok_iff (hv : v.Proper) {name : String} {piece block : Bytes}
    (hpiece : piece.length ≤ v.blockSize) {length index : Nat} :
    v.decodeBlock name length index (v.codec.form piece) = .ok block ↔
      Layout.blockLen length v.blockSize index ≤ piece.length ∧
        block = piece.take (Layout.blockLen length v.blockSize index) := by
  rw [decodeBlock, Codec.decode_form v.codec (hpiece.trans hv.blockSize_le)]
  by_cases hshort : piece.length < Layout.blockLen length v.blockSize index
  · simp only [hshort, if_true]
    constructor
    · intro h
      cases h
    · rintro ⟨hlong, -⟩
      exact absurd hshort (Nat.not_lt.2 hlong)
  · simp only [hshort, if_false, Except.ok.injEq]
    exact ⟨fun h => ⟨Nat.not_lt.1 hshort, h.symm⟩, fun h => h.2.symm⟩

/-- The stored form of a block of a content. -/
theorem getElem?_storedForms_eq_some_iff (hv : v.Proper) {content stored : Bytes} {index : Nat} :
    (v.storedForms content)[index]? = some stored ↔
      index < Layout.blockCount content.length v.blockSize ∧
        stored = v.codec.form ((content.drop (index * v.blockSize)).take v.blockSize) := by
  rw [storedForms, List.getElem?_map, getElem?_chunks hv.blockSize_pos]
  split
  · rename_i hindex
    simp [hindex, eq_comm]
  · rename_i hindex
    simp [hindex]

theorem decodeBlock_form (hv : v.Proper) (name : String) {content block : Bytes} {index : Nat}
    (hblock : (chunks v.blockSize content)[index]? = some block) :
    v.decodeBlock name content.length index (v.codec.form block) = .ok block := by
  have hlength := length_of_getElem?_chunks hv.blockSize_pos hblock
  have hbound : block.length ≤ v.blockSize := by
    rw [hlength]
    exact Nat.min_le_right _ _
  apply (decodeBlock_form_eq_ok_iff hv hbound).2
  rw [hlength, List.take_of_length_le (Nat.le_of_eq hlength)]
  exact ⟨Nat.le_refl _, rfl⟩

theorem decodeBlocks_storedForms (hv : v.Proper) (name : String) (content : Bytes) :
    v.decodeBlocks name content.length (v.storedForms content) =
      .ok (chunks v.blockSize content) := by
  refine decodeBlocks_eq_ok_iff.2 ⟨by simp [storedForms], fun index _ hindex => ?_⟩
  simp only [storedForms, List.getElem_map]
  exact decodeBlock_form hv name (List.getElem?_eq_getElem hindex)

/-- A file that is not too large is loaded whole. -/
theorem Holds.loadedIn (hv : v.Proper) (h : v.Holds tables files) {name : String} {content : Bytes}
    (hfile : files[name]? = some content) {count : Nat}
    (hcount : v.storedCount name content.length = .ok count) :
    v.loadedIn name content.length tables = .ok (LoadedFile.ofContent v.blockSize content) := by
  refine loadedIn_eq_ok_iff.2 ⟨_, _, ?_, decodeBlocks_storedForms hv name content, rfl⟩
  rw [h.storedIn hv hfile, hcount]
  rfl

/-- The blocks of a content are stored as they are: each fits its place exactly. -/
theorem encodeBlocks_chunks (hv : v.Proper) (content : Bytes) :
    v.encodeBlocks content.length (Layout.blockCount content.length v.blockSize)
      (chunks v.blockSize content) = .ok (v.storedForms content) := by
  refine encodeBlocks_eq_ok_iff.2 ⟨?_, fun index hindex _ => ?_⟩
  · rw [length_storedForms hv, length_chunks hv.blockSize_pos, Nat.min_self]
  · have hlength := length_of_getElem?_chunks hv.blockSize_pos (List.getElem?_eq_getElem hindex)
    have hbound : (chunks v.blockSize content)[index].length ≤ v.blockSize := by
      rw [hlength]
      exact Nat.min_le_right _ _
    simp only [storedForms, List.getElem_map, ← hlength, List.take_length]
    exact v.codec.encode_eq_ok (hbound.trans hv.blockSize_le)

theorem Holds.mem_catalog (h : v.Holds tables files) (name : String) :
    Utf8.encode name ∈ tables v.catalogKey ↔ name ∈ files := by
  rw [Std.ExtTreeMap.mem_iff_isSome_getElem?, Std.ExtTreeMap.mem_iff_isSome_getElem?]
  have hentry := h.entry name
  unfold entryIn at hentry
  rw [hentry, Option.isSome_map]

/-- The catalog names the files, in some order and each once. -/
theorem Holds.names_perm (h : v.Holds tables files) :
    ((tables v.catalogKey).keys.map Utf8.lossy).Perm files.keys := by
  refine (List.perm_ext_iff_of_nodup (nodup_names h.entries) Std.ExtTreeMap.nodup_keys).2 ?_
  intro name
  rw [Std.ExtTreeMap.mem_keys, ← h.mem_catalog, List.mem_map]
  constructor
  · rintro ⟨field, hfield, rfl⟩
    have hmem := Std.ExtTreeMap.mem_of_mem_keys hfield
    obtain ⟨n, rfl⟩ := h.entries field hmem
    rwa [Utf8.lossy_encode]
  · intro hmem
    exact ⟨_, Std.ExtTreeMap.mem_keys.2 hmem, Utf8.lossy_encode name⟩

/-- Sorting names that are the keys of a map gives its keys. -/
theorem mergeSort_eq_keys {names : List String} (h : names.Perm files.keys) :
    names.mergeSort (fun a b => compare a b != .gt) = files.keys := by
  have hle : ∀ a b : String, (compare a b != .gt) = (compare a b).isLE := by
    intro a b
    cases compare a b <;> rfl
  have hsorted : (names.mergeSort fun a b => compare a b != .gt).Pairwise
      fun a b => (compare a b != .gt) = true := by
    refine List.pairwise_mergeSort (fun a b c => ?_) (fun a b => ?_) names
    · simp only [hle]
      exact Std.TransOrd.isLE_trans
    · have hswap : compare b a = (compare a b).swap := Std.OrientedCmp.eq_swap
      rw [hswap]
      cases compare a b <;> rfl
  have hkeys : files.keys.Pairwise fun a b => (compare a b != .gt) = true :=
    Std.ExtTreeMap.ordered_keys.imp fun hlt => by rw [hlt]; rfl
  refine List.Perm.eq_of_pairwise (fun a b _ _ hab hba => ?_) hsorted hkeys
    ((List.mergeSort_perm _ _).trans h)
  have hswap : compare b a = (compare a b).swap := Std.OrientedCmp.eq_swap
  refine Std.LawfulEqOrd.eq_of_compare ?_
  rw [hswap] at hba
  cases hcompare : compare a b
  · rw [hcompare] at hba
    cases hba
  · rfl
  · rw [hcompare] at hab
    cases hab

end Volume

end BlockDir
