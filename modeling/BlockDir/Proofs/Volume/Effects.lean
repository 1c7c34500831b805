import BlockDir.Proofs.Layout.Keys
import BlockDir.Proofs.Text.Utf8
import BlockDir.Proofs.Volume.Plans

/-!
# What batches do to files

The tables hold two sorts of fields, catalog entries and blocks, and each belongs to one name
(`Volume.Owns`). A batch that saves or deletes a file touches only what belongs to its name, so any
part of it leaves all other files alone; and after the whole of it the file is what was saved, or
gone.
-/

namespace BlockDir

namespace Volume

variable {v : Volume} {tables : Bytes → Table}

/-- Whether a field of a table belongs to a file: its catalog entry and its blocks do. -/
def Owns (v : Volume) (name : String) (key field : Bytes) : Prop :=
  key = v.catalogKey ∧ field = Utf8.encode name ∨
    key = v.blocksKey ∧ ∃ index, field = Layout.blockKey name index

/-- No field belongs to two names. -/
theorem Owns.name_unique (hkeys : v.catalogKey ≠ v.blocksKey) {m n : String} {key field : Bytes}
    (hm : v.Owns m key field) (hn : v.Owns n key field) : m = n := by
  rcases hm with ⟨hkey, hfield⟩ | ⟨hkey, i, hfield⟩
  · rcases hn with ⟨-, hfield'⟩ | ⟨hkey', -⟩
    · exact Utf8.encode_injective (hfield.symm.trans hfield')
    · exact absurd (hkey.symm.trans hkey') hkeys
  · rcases hn with ⟨hkey', -⟩ | ⟨-, j, hfield'⟩
    · exact absurd (hkey'.symm.trans hkey) hkeys
    · exact (Layout.blockKey_inj.1 (hfield.symm.trans hfield')).1

/-- Where all fields are names, each name is listed once. -/
theorem nodup_names {table : Table} (h : ∀ field ∈ table, ∃ name, field = Utf8.encode name) :
    (table.keys.map Utf8.lossy).Nodup := by
  refine List.Nodup.map_on ?_ Std.ExtTreeMap.nodup_keys
  intro a ha b hb heq
  obtain ⟨m, rfl⟩ := h a (Std.ExtTreeMap.mem_of_mem_keys ha)
  obtain ⟨n, rfl⟩ := h b (Std.ExtTreeMap.mem_of_mem_keys hb)
  rw [Utf8.lossy_encode, Utf8.lossy_encode] at heq
  rw [heq]

theorem owns_of_mem_blockWrites {name : String} {stored : List Bytes} {w : Write} {key field : Bytes}
    (hmem : w ∈ v.blockWrites name stored) (h : w.Touches key field) : v.Owns name key field := by
  obtain ⟨⟨value, index⟩, -, rfl⟩ := List.mem_map.1 hmem
  obtain ⟨rfl, rfl⟩ := h
  exact .inr ⟨rfl, index, rfl⟩

theorem owns_of_mem_lengthWrite {name : String} {length : Nat} {w : Write} {key field : Bytes}
    (hmem : w ∈ v.lengthWrite name length) (h : w.Touches key field) : v.Owns name key field := by
  rw [Batch.mem_set hmem] at h
  obtain ⟨rfl, rfl⟩ := h
  exact .inl ⟨rfl, rfl⟩

theorem owns_of_mem_entryRemoval {name : String} {w : Write} {key field : Bytes}
    (hmem : w ∈ v.entryRemoval name) (h : w.Touches key field) : v.Owns name key field := by
  rw [Batch.mem_delete hmem] at h
  obtain ⟨rfl, hfield⟩ := h
  exact .inl ⟨rfl, List.mem_singleton.1 hfield⟩

theorem owns_of_mem_blockRemoval {name : String} {low high : Nat} {w : Write} {key field : Bytes}
    (hmem : w ∈ v.blockRemoval name low high) (h : w.Touches key field) : v.Owns name key field := by
  rw [Batch.mem_delete hmem] at h
  obtain ⟨rfl, hfield⟩ := h
  obtain ⟨index, -, rfl⟩ := List.mem_map.1 hfield
  exact .inr ⟨rfl, index, rfl⟩

theorem owns_of_mem_saveBatch {name : String} {stored : List Bytes} {length stale : Nat} {w : Write}
    {key field : Bytes} (hmem : w ∈ v.saveBatch name stored length stale) (h : w.Touches key field) :
    v.Owns name key field := by
  rw [saveBatch, List.mem_append, List.mem_append] at hmem
  obtain (hmem | hmem) | hmem := hmem
  · exact owns_of_mem_blockWrites hmem h
  · exact owns_of_mem_lengthWrite hmem h
  · exact owns_of_mem_blockRemoval hmem h

theorem owns_of_mem_deleteBatch {name : String} {count : Nat} {w : Write} {key field : Bytes}
    (hmem : w ∈ v.deleteBatch name count) (h : w.Touches key field) : v.Owns name key field := by
  rw [deleteBatch, List.mem_append] at hmem
  rcases hmem with hmem | hmem
  · exact owns_of_mem_entryRemoval hmem h
  · exact owns_of_mem_blockRemoval hmem h

/-- A batch for one file adds no field that does not belong to it. -/
theorem owns_or_mem_onTables {batch : Batch} {name : String}
    (howns : ∀ w ∈ batch, ∀ key field, w.Touches key field → v.Owns name key field)
    {key field : Bytes} (hmem : field ∈ Batch.onTables batch tables key) :
    v.Owns name key field ∨ field ∈ tables key := by
  by_cases htouched : ∃ w ∈ batch, w.Touches key field
  · obtain ⟨w, hw, htouches⟩ := htouched
    exact .inl (howns w hw key field htouches)
  · right
    have huntouched : ∀ w ∈ batch, ¬ w.Touches key field :=
      fun w hw htouches => htouched ⟨w, hw, htouches⟩
    have hsame := Batch.getElem?_onTables_of_untouched huntouched tables
    rw [Std.ExtTreeMap.mem_iff_isSome_getElem?] at hmem ⊢
    rwa [hsame] at hmem

/-- Whether two states of the tables agree on all that belongs to a file. -/
def Agree (v : Volume) (name : String) (a b : Bytes → Table) : Prop :=
  ∀ key field, v.Owns name key field → (a key)[field]? = (b key)[field]?

theorem agree_of_keys {name : String} {a b : Bytes → Table} (h : ∀ key ∈ v.keys, a key = b key) :
    v.Agree name a b := by
  rintro key field (⟨rfl, -⟩ | ⟨rfl, -⟩)
  · rw [h _ v.catalogKey_mem]
  · rw [h _ v.blocksKey_mem]

/-- Writes that touch only what belongs to one name leave all other files alone. -/
theorem agree_onTables (hkeys : v.catalogKey ≠ v.blocksKey) {batch : Batch} {name other : String}
    (howns : ∀ w ∈ batch, ∀ key field, w.Touches key field → v.Owns name key field)
    (hne : other ≠ name) (tables : Bytes → Table) :
    v.Agree other (Batch.onTables batch tables) tables := by
  intro key field hfield
  refine Batch.getElem?_onTables_of_untouched (fun w hmem htouches => hne ?_) tables
  exact hfield.name_unique hkeys (howns w hmem key field htouches)

/-- A part of saving another file. -/
theorem agree_take_saveBatch (hkeys : v.catalogKey ≠ v.blocksKey) {name other : String}
    (hne : other ≠ name) (stored : List Bytes) (length stale count : Nat) (tables : Bytes → Table) :
    v.Agree other
      (Batch.onTables ((v.saveBatch name stored length stale).take count) tables) tables :=
  agree_onTables hkeys
    (fun _ hmem _ _ => owns_of_mem_saveBatch (List.mem_of_mem_take hmem)) hne tables

/-- A part of deleting another file. -/
theorem agree_take_deleteBatch (hkeys : v.catalogKey ≠ v.blocksKey) {name other : String}
    (hne : other ≠ name) (blocks count : Nat) (tables : Bytes → Table) :
    v.Agree other (Batch.onTables ((v.deleteBatch name blocks).take count) tables) tables :=
  agree_onTables hkeys
    (fun _ hmem _ _ => owns_of_mem_deleteBatch (List.mem_of_mem_take hmem)) hne tables

theorem Agree.entryIn {name : String} {a b : Bytes → Table} (h : v.Agree name a b) :
    v.entryIn name a = v.entryIn name b :=
  h _ _ (.inl ⟨rfl, rfl⟩)

theorem Agree.blockIn {name : String} {a b : Bytes → Table} (h : v.Agree name a b) (index : Nat) :
    v.blockIn name index a = v.blockIn name index b :=
  h _ _ (.inr ⟨rfl, index, rfl⟩)

theorem Agree.lengthIn {name : String} {a b : Bytes → Table} (h : v.Agree name a b) :
    v.lengthIn name a = v.lengthIn name b := by
  rw [Volume.lengthIn, Volume.lengthIn, h.entryIn]

theorem Agree.loadedIn {name : String} {a b : Bytes → Table} (h : v.Agree name a b) (length : Nat) :
    v.loadedIn name length a = v.loadedIn name length b := by
  simp only [Volume.loadedIn, Volume.storedIn, h.blockIn]

theorem blockIn_blockWrites (name other : String) (index : Nat) (stored : List Bytes)
    (tables : Bytes → Table) :
    v.blockIn other index (Batch.onTables (v.blockWrites name stored) tables) =
      if other = name ∧ index < stored.length then stored[index]?
      else v.blockIn other index tables := by
  induction stored using List.reverseRecOn with
  | nil => simp [blockWrites]
  | append_singleton front value ih =>
    have hsplit : v.blockWrites name (front ++ [value]) = v.blockWrites name front ++
        Batch.set v.blocksKey (Layout.blockKey name front.length) value := by
      simp [blockWrites, List.zipIdx_append, Batch.set]
    have hset := Batch.getElem?_onTables_set v.blocksKey (Layout.blockKey name front.length) value
      (Batch.onTables (v.blockWrites name front) tables) v.blocksKey (Layout.blockKey other index)
    simp only [Layout.blockKey_inj] at hset
    rw [hsplit, Batch.onTables_append, Volume.blockIn, hset]
    by_cases hlast : name = other ∧ front.length = index
    · obtain ⟨rfl, rfl⟩ := hlast
      simp
    · rw [if_neg (fun h => hlast h.2)]
      refine ih.trans ?_
      by_cases hname : other = name
      · subst hname
        have hne : index ≠ front.length := fun h => hlast ⟨rfl, h.symm⟩
        rcases Nat.lt_or_ge index front.length with hlt | hge
        · simp [hlt, Nat.lt_succ_of_lt hlt]
        · have hgt : ¬ index < front.length + 1 := by omega
          simp [Nat.not_lt.2 hge, hgt]
      · simp [hname]

theorem entryIn_lengthWrite (name other : String) (length : Nat) (tables : Bytes → Table) :
    v.entryIn other (Batch.onTables (v.lengthWrite name length) tables) =
      if other = name then some (Layout.encodeLength length) else v.entryIn other tables := by
  rw [Volume.entryIn, lengthWrite, Batch.getElem?_onTables_set]
  by_cases hname : other = name
  · simp [hname]
  · have hfield : Utf8.encode name ≠ Utf8.encode other :=
      fun h => hname (Utf8.encode_injective h).symm
    simp [hname, hfield, Volume.entryIn]

theorem entryIn_entryRemoval (name other : String) (tables : Bytes → Table) :
    v.entryIn other (Batch.onTables (v.entryRemoval name) tables) =
      if other = name then none else v.entryIn other tables := by
  rw [Volume.entryIn, entryRemoval, Batch.getElem?_onTables_delete]
  by_cases hname : other = name
  · simp [hname]
  · have hfield : Utf8.encode other ≠ Utf8.encode name :=
      fun h => hname (Utf8.encode_injective h)
    simp [hname, hfield, Volume.entryIn]

theorem blockIn_blockRemoval (name other : String) (index low high : Nat) (tables : Bytes → Table) :
    v.blockIn other index (Batch.onTables (v.blockRemoval name low high) tables) =
      if other = name ∧ low ≤ index ∧ index < high then none else v.blockIn other index tables := by
  have hmem : Layout.blockKey other index ∈
      (List.range' low (high - low)).map (Layout.blockKey name) ↔
        other = name ∧ low ≤ index ∧ index < high := by
    simp only [List.mem_map, List.mem_range'_1, Layout.blockKey_inj]
    constructor
    · rintro ⟨i, ⟨hlow, hhigh⟩, rfl, rfl⟩
      exact ⟨rfl, hlow, by omega⟩
    · rintro ⟨rfl, hlow, hhigh⟩
      exact ⟨index, ⟨hlow, by omega⟩, rfl, rfl⟩
  rw [Volume.blockIn, blockRemoval, Batch.getElem?_onTables_delete]
  simp only [hmem, true_and]
  rfl

section

variable (hkeys : v.catalogKey ≠ v.blocksKey)

include hkeys

theorem entryIn_blockWrites (name other : String) (stored : List Bytes) (tables : Bytes → Table) :
    v.entryIn other (Batch.onTables (v.blockWrites name stored) tables) = v.entryIn other tables := by
  refine Batch.getElem?_onTables_of_untouched (fun w hmem htouches => ?_) tables
  obtain ⟨⟨value, index⟩, -, rfl⟩ := List.mem_map.1 hmem
  exact hkeys htouches.1.symm

theorem blockIn_lengthWrite (name other : String) (index length : Nat) (tables : Bytes → Table) :
    v.blockIn other index (Batch.onTables (v.lengthWrite name length) tables) =
      v.blockIn other index tables := by
  rw [Volume.blockIn, lengthWrite, Batch.getElem?_onTables_set]
  simp [hkeys, Volume.blockIn]

theorem blockIn_entryRemoval (name other : String) (index : Nat) (tables : Bytes → Table) :
    v.blockIn other index (Batch.onTables (v.entryRemoval name) tables) =
      v.blockIn other index tables := by
  rw [Volume.blockIn, entryRemoval, Batch.getElem?_onTables_delete]
  simp [hkeys, Volume.blockIn]

theorem entryIn_blockRemoval (name other : String) (low high : Nat) (tables : Bytes → Table) :
    v.entryIn other (Batch.onTables (v.blockRemoval name low high) tables) =
      v.entryIn other tables := by
  rw [Volume.entryIn, blockRemoval, Batch.getElem?_onTables_delete]
  simp [hkeys.symm, Volume.entryIn]

theorem entryIn_saveBatch (name other : String) (stored : List Bytes) (length stale : Nat)
    (tables : Bytes → Table) :
    v.entryIn other (Batch.onTables (v.saveBatch name stored length stale) tables) =
      if other = name then some (Layout.encodeLength length) else v.entryIn other tables := by
  rw [saveBatch, Batch.onTables_append, Batch.onTables_append, entryIn_blockRemoval hkeys,
    entryIn_lengthWrite, entryIn_blockWrites hkeys]

/-- After a file was saved its blocks are the new ones, and none of the stale ones is left. -/
theorem blockIn_saveBatch (name other : String) (index : Nat) (stored : List Bytes)
    (length stale : Nat) (tables : Bytes → Table) :
    v.blockIn other index (Batch.onTables (v.saveBatch name stored length stale) tables) =
      if other = name ∧ index < max stored.length stale then stored[index]?
      else v.blockIn other index tables := by
  rw [saveBatch, Batch.onTables_append, Batch.onTables_append, blockIn_blockRemoval,
    blockIn_lengthWrite hkeys, blockIn_blockWrites]
  by_cases hname : other = name
  · subst hname
    rcases Nat.lt_or_ge index stored.length with hnew | hnew
    · have hmax : index < max stored.length stale := by omega
      simp [hnew, hmax, Nat.not_le.2 hnew]
    · by_cases hstale : index < stale
      · have hmax : index < max stored.length stale := by omega
        simp [hnew, hstale, hmax]
      · have hmax : ¬ index < max stored.length stale := by omega
        simp [hstale, hmax, Nat.not_lt.2 hnew]
  · simp [hname]

theorem entryIn_deleteBatch (name other : String) (count : Nat) (tables : Bytes → Table) :
    v.entryIn other (Batch.onTables (v.deleteBatch name count) tables) =
      if other = name then none else v.entryIn other tables := by
  rw [deleteBatch, Batch.onTables_append, entryIn_blockRemoval hkeys, entryIn_entryRemoval]

theorem blockIn_deleteBatch (name other : String) (index count : Nat) (tables : Bytes → Table) :
    v.blockIn other index (Batch.onTables (v.deleteBatch name count) tables) =
      if other = name ∧ index < count then none else v.blockIn other index tables := by
  rw [deleteBatch, Batch.onTables_append, blockIn_blockRemoval, blockIn_entryRemoval hkeys]
  simp only [Nat.zero_le, true_and]

end

end Volume

end BlockDir
