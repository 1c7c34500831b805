import BlockDir.Proofs.Volume.Batches

/-!
# What success leaves

A stray is a block that the entry of its file does not call for. Once a mutation is carried out, what
stands under a name that it targets is what the entry calls for and the strays from before
(`Volume.Settles`): stale blocks are counted by the entry alone, so none of them is removed that the
entry did not account for. It is clean if and only if the new file covers the strays.
-/

namespace BlockDir

namespace Volume

variable {v : Volume} {name : String} {tables before after : Bytes → Table}

/-- How many blocks the entry of a file calls for; none if there is no entry. -/
def calledFor (v : Volume) (name : String) (tables : Bytes → Table) : Nat :=
  match v.entryIn name tables with
  | some stored => Layout.blockCount stored.toNat v.blockSize
  | none => 0

/-- A block that the entry of its file does not call for. -/
def Stray (v : Volume) (name : String) (index : Nat) (tables : Bytes → Table) : Prop :=
  Layout.blockKey name index ∈ tables v.blocksKey ∧ v.calledFor name tables ≤ index

/-- Whether the blocks under a name are those that its entry calls for. -/
def Clean (v : Volume) (name : String) (tables : Bytes → Table) : Prop :=
  ∀ index, Layout.blockKey name index ∈ tables v.blocksKey ↔ index < v.calledFor name tables

/-- Whether what stands under a name are the blocks that its entry calls for and the strays from
before. -/
def Settles (v : Volume) (name : String) (before after : Bytes → Table) : Prop :=
  ∀ index, Layout.blockKey name index ∈ after v.blocksKey ↔
    index < v.calledFor name after ∨ v.Stray name index before

theorem Settles.clean_iff (h : v.Settles name before after) :
    v.Clean name after ↔ ∀ index, v.Stray name index before → index < v.calledFor name after := by
  constructor
  · intro hclean index hstray
    exact (hclean index).1 ((h index).2 (.inr hstray))
  · intro hcovered index
    rw [h index]
    constructor
    · rintro (hindex | hstray)
      · exact hindex
      · exact hcovered index hstray
    · exact .inl

theorem mem_blocks_iff {index : Nat} :
    Layout.blockKey name index ∈ tables v.blocksKey ↔ (v.blockIn name index tables).isSome := by
  rw [blockIn, Std.ExtTreeMap.mem_iff_isSome_getElem?]

theorem calledFor_of_lengthIn {previous : Option Nat} (h : v.lengthIn name tables = .ok previous) :
    v.calledFor name tables =
      (previous.map fun length => Layout.blockCount length v.blockSize).getD 0 := by
  cases hentry : v.entryIn name tables with
  | none =>
    rw [lengthIn, hentry] at h
    obtain rfl : none = previous := Except.ok.inj h
    simp [calledFor, hentry]
  | some stored =>
    cases previous with
    | none =>
      obtain ⟨length, -, hnone⟩ := bind_eq_ok.1 (by rw [lengthIn, hentry] at h; exact h)
      cases hnone
    | some length =>
      obtain ⟨entry, hentry', -, rfl⟩ := lengthIn_eq_some_iff.1 h
      rw [calledFor, hentry', Option.map_some, Option.getD_some]

theorem Agree.calledFor {a b : Bytes → Table} (h : v.Agree name a b) :
    v.calledFor name a = v.calledFor name b := by
  rw [Volume.calledFor, Volume.calledFor, h.entryIn]

theorem Agree.stray {a b : Bytes → Table} (h : v.Agree name a b) (index : Nat) :
    v.Stray name index a ↔ v.Stray name index b := by
  rw [Stray, Stray, mem_blocks_iff, mem_blocks_iff, h.blockIn, h.calledFor]

/-- What settles is told by what belongs to the name. -/
theorem Settles.of_agree {before' after' : Bytes → Table} (h : v.Settles name before after)
    (hbefore : v.Agree name before' before) (hafter : v.Agree name after' after) :
    v.Settles name before' after' := by
  intro index
  rw [mem_blocks_iff, hafter.blockIn, ← mem_blocks_iff, h index, hafter.calledFor,
    hbefore.stray index]

/-- Nothing is to be settled under a name whose entry calls for no block. -/
theorem settles_uncalled (h : v.calledFor name tables = 0) : v.Settles name tables tables := by
  intro index
  simp [Stray, h]

/-- Nothing is to be settled under the name of a file that lacks no block. -/
theorem settles_same {length : Nat} {stored : List Bytes}
    (hlength : v.lengthIn name tables = .ok (some length))
    (hstored : v.storedIn name length tables = .ok stored) : v.Settles name tables tables := by
  obtain ⟨hcount, hblocks⟩ := storedIn_eq_ok_iff.1 hstored
  have hcalled := calledFor_of_lengthIn hlength
  rw [Option.map_some, Option.getD_some, ← (storedCount_eq_ok hcount).2] at hcalled
  intro index
  rw [Stray, hcalled]
  rcases Nat.lt_or_ge index stored.length with hindex | hindex
  · have hblock : Layout.blockKey name index ∈ tables v.blocksKey := by
      rw [mem_blocks_iff, hblocks index hindex]
      simp [hindex]
    simp [hblock, hindex]
  · simp [hindex, Nat.not_lt.2 hindex]

section

variable (hkeys : v.catalogKey ≠ v.blocksKey)

include hkeys

theorem settles_saveBatch (name : String) {stored : List Bytes} {length stale : Nat}
    (hfits : (Layout.encodeLength length).toNat = length)
    (hwhole : stored.length = Layout.blockCount length v.blockSize)
    (hstale : stale = v.calledFor name tables) :
    v.Settles name tables (Batch.onTables (v.saveBatch name stored length stale) tables) := by
  have hcalled : v.calledFor name (Batch.onTables (v.saveBatch name stored length stale) tables) =
      stored.length := by
    rw [calledFor, entryIn_saveBatch hkeys, if_pos rfl, hwhole]
    simp only [hfits]
  intro index
  rw [Stray, mem_blocks_iff, mem_blocks_iff, hcalled, ← hstale, blockIn_saveBatch hkeys]
  by_cases hreach : index < max stored.length stale
  · rw [if_pos ⟨rfl, hreach⟩]
    rcases Nat.lt_or_ge index stored.length with hindex | hindex
    · simp [hindex]
    · have hold : ¬ stale ≤ index := by omega
      simp [hindex, hold]
  · have hindex : ¬ index < stored.length := by omega
    have hold : stale ≤ index := by omega
    rw [if_neg fun h => hreach h.2]
    simp [hindex, hold]

theorem settles_deleteBatch (name : String) {count : Nat}
    (hcount : count = v.calledFor name tables) :
    v.Settles name tables (Batch.onTables (v.deleteBatch name count) tables) := by
  have hcalled : v.calledFor name (Batch.onTables (v.deleteBatch name count) tables) = 0 := by
    rw [calledFor, entryIn_deleteBatch hkeys, if_pos rfl]
  intro index
  rw [Stray, mem_blocks_iff, mem_blocks_iff, hcalled, ← hcount, blockIn_deleteBatch hkeys]
  by_cases hindex : index < count
  · simp [hindex]
  · simp [hindex, Nat.le_of_not_lt hindex]

/-- A move settles the name that it takes the file from, and the one that it takes it to. -/
theorem settles_renameBatch {source dest : String} (hne : source ≠ dest) {stored : List Bytes}
    {length stale : Nat} (hfits : (Layout.encodeLength length).toNat = length)
    (hwhole : stored.length = Layout.blockCount length v.blockSize)
    (hsource : stored.length = v.calledFor source tables)
    (hstale : stale = v.calledFor dest tables) :
    let after := Batch.onTables (v.renameBatch source dest stored length stale) tables
    v.Settles source tables after ∧ v.Settles dest tables after := by
  intro after
  have hafter : after = Batch.onTables (v.deleteBatch source stored.length)
      (Batch.onTables (v.saveBatch dest stored length stale) tables) := by
    simp only [after, renameBatch, Batch.onTables_append]
  have hsame : v.Agree source (Batch.onTables (v.saveBatch dest stored length stale) tables) tables :=
    agree_onTables hkeys (fun _ hmem _ _ => owns_of_mem_saveBatch hmem) hne tables
  constructor
  · have hcount : stored.length = v.calledFor source
        (Batch.onTables (v.saveBatch dest stored length stale) tables) := by
      rw [hsource, hsame.calledFor]
    rw [hafter]
    apply (settles_deleteBatch hkeys source hcount).of_agree _ (agree_of_keys fun _ _ => rfl)
    intro key field howns
    exact (hsame key field howns).symm
  · apply (settles_saveBatch hkeys dest hfits hwhole hstale).of_agree
      (agree_of_keys fun _ _ => rfl)
    rw [hafter]
    exact agree_onTables hkeys (fun _ hmem _ _ => owns_of_mem_deleteBatch hmem) (Ne.symm hne) _

end

end Volume

namespace Directory

variable {d : Directory} {tables : Bytes → Table} {batch : Batch}

/-- The number of blocks that are taken for stale is what the entry calls for. -/
theorem stale_eq_calledFor {name : String} {previous : Option Nat} {stale : Nat}
    (hprevious : d.volume.lengthIn name tables = .ok previous)
    (hstale : d.volume.staleCount name previous = .ok stale) :
    stale = d.volume.calledFor name tables := by
  rw [Volume.calledFor_of_lengthIn hprevious]
  exact Volume.staleCount_eq_ok hstale

variable (hkeys : d.volume.catalogKey ≠ d.volume.blocksKey)

include hkeys

/-- Closing an output settles its name. -/
theorem settles_storePlan {output : Output} (hrange : output.position < 2 ^ 64)
    (h : d.storePlan output tables = .ok ((), batch)) :
    d.volume.Settles output.name tables (Batch.onTables batch tables) := by
  obtain ⟨-, hsave⟩ := storePlan_eq_ok h
  obtain ⟨stored, previous, stale, hwhole, -, hprevious, hstale, rfl⟩ :=
    Volume.savePlan_eq_ok hsave
  exact Volume.settles_saveBatch hkeys output.name (Layout.toNat_encodeLength hrange) hwhole
    (stale_eq_calledFor hprevious hstale)

/-- Deleting a file settles its name, whether or not it is there. -/
theorem settles_deleteFilePlan {name : String}
    (h : d.deleteFilePlan name tables = .ok ((), batch)) :
    d.volume.Settles name tables (Batch.onTables batch tables) := by
  obtain ⟨there, hdelete⟩ := deleteFilePlan_eq_ok h
  obtain ⟨hnone, rfl⟩ | ⟨length, hlength, herase⟩ := Volume.deletePlan_eq_ok hdelete
  · have hcalled := Volume.calledFor_of_lengthIn hnone
    exact Volume.settles_uncalled hcalled
  · obtain ⟨count, hcount, rfl⟩ := Volume.erasePlan_eq_ok herase
    refine Volume.settles_deleteBatch hkeys name ?_
    rw [Volume.calledFor_of_lengthIn hlength]
    exact (Volume.storedCount_eq_ok hcount).2

/-- Renaming a file settles both names. -/
theorem settles_renameFilePlan {source dest : String}
    (h : d.renameFilePlan source dest tables = .ok ((), batch)) :
    d.volume.Settles source tables (Batch.onTables batch tables) ∧
      d.volume.Settles dest tables (Batch.onTables batch tables) := by
  obtain ⟨-, length, stored, hlength, hstored, hrename⟩ := renameFilePlan_eq_ok h
  obtain ⟨rfl, rfl⟩ | ⟨hne, previous, stale, hcount, hprevious, hstale, rfl⟩ :=
    Volume.renamePlan_eq_ok hrename
  · have hsame := Volume.settles_same hlength hstored
    exact ⟨hsame, hsame⟩
  · have hwhole := (Volume.storedCount_eq_ok hcount).2
    refine Volume.settles_renameBatch hkeys hne ?_ hwhole ?_ (stale_eq_calledFor hprevious hstale)
    · obtain ⟨entry, -, hwidth, rfl⟩ := Volume.lengthIn_eq_some_iff.1 hlength
      rw [Layout.encodeLength_toNat hwidth]
    · rw [Volume.calledFor_of_lengthIn hlength]
      exact hwhole

end Directory

end BlockDir
