import BlockDir.Proofs.Volume.Batches
import BlockDir.Proofs.Volume.Cuts

/-!
# No file lacks a block

Blocks are written before the entry that calls for them and removed after it, so wherever a batch is
cut, each file in the catalog has all the blocks that its length calls for (`Volume.Complete`). This
holds from whatever tables of that sort the batch starts, those with blocks that no entry accounts for
among them.
-/

namespace BlockDir

/-- A length that does not fit is stored as a smaller one. -/
theorem Layout.toNat_encodeLength_le (length : Nat) :
    (Layout.encodeLength length).toNat ≤ length := by
  rw [Layout.encodeLength, Bytes.toNat_bigEndian]
  exact Nat.mod_le _ _

namespace Volume

/-- Whether a file, if it is in the catalog, has an entry of the right width and all the blocks that
the entry calls for. -/
def HasBlocks (v : Volume) (name : String) (tables : Bytes → Table) : Prop :=
  ∀ stored, v.entryIn name tables = some stored → stored.length = Layout.lengthBytes ∧
    ∀ index < Layout.blockCount stored.toNat v.blockSize, (v.blockIn name index tables).isSome

/-- The catalog lists names, and each file in it has all its blocks. -/
structure Complete (v : Volume) (tables : Bytes → Table) : Prop where
  names : ∀ field ∈ tables v.catalogKey, ∃ name, field = Utf8.encode name
  blocks : ∀ name, v.HasBlocks name tables

variable {v : Volume} {tables : Bytes → Table} {name : String}

theorem complete_empty (h : ∀ key ∈ v.keys, tables key = ∅) : v.Complete tables where
  names field hmem := by simp [h _ v.catalogKey_mem] at hmem
  blocks name stored hentry := by simp [entryIn, h _ v.catalogKey_mem] at hentry

theorem Complete.congr {a b : Bytes → Table} (h : ∀ key ∈ v.keys, a key = b key)
    (hcomplete : v.Complete a) : v.Complete b := by
  have hcatalog := h _ v.catalogKey_mem
  have hblocks := h _ v.blocksKey_mem
  constructor
  · rw [← hcatalog]
    exact hcomplete.names
  · intro name stored hentry
    rw [entryIn, ← hcatalog] at hentry
    simp only [blockIn, ← hblocks]
    exact hcomplete.blocks name stored hentry

/-- A file that is in the catalog has all its blocks, whatever its length. -/
theorem Complete.lengthIn (h : v.Complete tables) (name : String) :
    v.lengthIn name tables = .ok none ∧ v.entryIn name tables = none ∨
      ∃ length, v.lengthIn name tables = .ok (some length) ∧
        ∀ index < Layout.blockCount length v.blockSize, (v.blockIn name index tables).isSome := by
  cases hentry : v.entryIn name tables with
  | none =>
    left
    simp [Volume.lengthIn, hentry, pure, Except.pure]
  | some stored =>
    obtain ⟨hwidth, hblocks⟩ := h.blocks name stored hentry
    exact .inr ⟨stored.toNat, lengthIn_eq_some_iff.2 ⟨stored, hentry, hwidth, rfl⟩, hblocks⟩

theorem HasBlocks.of_agree {a b : Bytes → Table} (hagree : v.Agree name a b)
    (h : v.HasBlocks name b) : v.HasBlocks name a := by
  intro stored hentry
  simp only [hagree.blockIn]
  exact h stored (hagree.entryIn.symm.trans hentry)

section

variable (hkeys : v.catalogKey ≠ v.blocksKey)

include hkeys

/-- What remains to be seen of a batch for one file: that this file has its blocks. -/
theorem Complete.onTables (h : v.Complete tables) {batch : Batch}
    (howns : ∀ w ∈ batch, ∀ key field, w.Touches key field → v.Owns name key field)
    (hname : v.HasBlocks name (Batch.onTables batch tables)) :
    v.Complete (Batch.onTables batch tables) := by
  constructor
  · intro field hmem
    rcases owns_or_mem_onTables howns hmem with (⟨-, hfield⟩ | ⟨hkey, -⟩) | hmem
    · exact ⟨name, hfield⟩
    · exact absurd hkey hkeys
    · exact h.names field hmem
  · intro other
    by_cases hother : other = name
    · rw [hother]
      exact hname
    · exact (h.blocks other).of_agree (agree_onTables hkeys howns hother tables)

theorem Complete.blockWrites (h : v.Complete tables) (name : String) (stored : List Bytes) :
    v.Complete (Batch.onTables (v.blockWrites name stored) tables) := by
  apply h.onTables hkeys fun _ hmem _ _ => owns_of_mem_blockWrites hmem
  intro entry hentry
  rw [entryIn_blockWrites hkeys] at hentry
  obtain ⟨hwidth, hblocks⟩ := h.blocks name entry hentry
  refine ⟨hwidth, ?_⟩
  intro index hindex
  rw [blockIn_blockWrites]
  split
  · rename_i hnew
    simp [hnew.2]
  · exact hblocks index hindex

/-- Saving all blocks of a file, whatever is taken for stale. -/
theorem Complete.saveBatch (h : v.Complete tables) (name : String) {stored : List Bytes}
    {length : Nat} (hwhole : stored.length = Layout.blockCount length v.blockSize) (stale : Nat) :
    v.Complete (Batch.onTables (v.saveBatch name stored length stale) tables) := by
  apply h.onTables hkeys fun _ hmem _ _ => owns_of_mem_saveBatch hmem
  intro entry hentry
  rw [entryIn_saveBatch hkeys, if_pos rfl] at hentry
  obtain rfl := Option.some.inj hentry
  refine ⟨Layout.length_encodeLength _, ?_⟩
  intro index hindex
  have hcount := Layout.blockCount_mono (Layout.toNat_encodeLength_le length) v.blockSize
  have hnew : index < stored.length := by omega
  rw [blockIn_saveBatch hkeys, if_pos ⟨rfl, by omega⟩]
  simp [hnew]

theorem Complete.deleteBatch (h : v.Complete tables) (name : String) (count : Nat) :
    v.Complete (Batch.onTables (v.deleteBatch name count) tables) := by
  apply h.onTables hkeys fun _ hmem _ _ => owns_of_mem_deleteBatch hmem
  intro entry hentry
  rw [entryIn_deleteBatch hkeys, if_pos rfl] at hentry
  cases hentry

theorem Complete.take_saveBatch (h : v.Complete tables) (name : String) {stored : List Bytes}
    {length : Nat} (hwhole : stored.length = Layout.blockCount length v.blockSize)
    (stale count : Nat) :
    v.Complete (Batch.onTables ((v.saveBatch name stored length stale).take count) tables) := by
  obtain ⟨few, htake⟩ | ⟨stale', -, htake⟩ := Volume.take_saveBatch name stored length stale count
  · rw [htake]
    exact h.blockWrites hkeys name _
  · rw [htake]
    exact h.saveBatch hkeys name hwhole stale'

theorem Complete.take_deleteBatch (h : v.Complete tables) (name : String) (blocks count : Nat) :
    v.Complete (Batch.onTables ((v.deleteBatch name blocks).take count) tables) := by
  obtain htake | ⟨removed, -, htake⟩ := Volume.take_deleteBatch name blocks count
  · rw [htake]
    exact h
  · rw [htake]
    exact h.deleteBatch hkeys name removed

theorem Complete.take_renameBatch (h : v.Complete tables) (source dest : String)
    {stored : List Bytes} {length : Nat}
    (hwhole : stored.length = Layout.blockCount length v.blockSize) (stale count : Nat) :
    v.Complete
      (Batch.onTables ((v.renameBatch source dest stored length stale).take count) tables) := by
  obtain htake | ⟨more, htake⟩ := Volume.take_renameBatch source dest stored length stale count
  · rw [htake]
    exact h.take_saveBatch hkeys dest hwhole stale count
  · rw [htake, Batch.onTables_append]
    exact (h.saveBatch hkeys dest hwhole stale).take_deleteBatch hkeys source _ more

/-- Wherever what a mutation commits is cut, no file lacks a block. -/
theorem Complete.take_planned (h : v.Complete tables) {batch : Batch} (hplanned : v.Planned batch)
    (count : Nat) : v.Complete (Batch.onTables (batch.take count) tables) := by
  cases hplanned with
  | nothing => simpa using h
  | save name stale hwhole => exact h.take_saveBatch hkeys name hwhole stale count
  | delete name blocks => exact h.take_deleteBatch hkeys name blocks count
  | rename source dest stale hwhole =>
    exact h.take_renameBatch hkeys source dest hwhole stale count

end

end Volume

end BlockDir
