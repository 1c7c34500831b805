import BlockDir.Proofs.Directory.Mutations
import BlockDir.Proofs.Volume.Loading

/-!
# What is committed

A plan that is carried out commits one of few sorts of batches, and it has found what that takes: the
length of the previous version to know the stale blocks, and as many blocks as the length of the file
calls for. Plans of directories are told by those of their volumes.
-/

namespace BlockDir

theorem bind_eq_ok {ε α β : Type} {x : Except ε α} {f : α → Except ε β} {b : β} :
    (x >>= f) = .ok b ↔ ∃ a, x = .ok a ∧ f a = .ok b := by
  cases x <;> simp [bind, Except.bind]

/-- A plan commits what it returns, and nothing if it refuses. -/
theorem Plan.batch_cases {α : Type} (plan : Plan α) (tables : Bytes → Table) :
    (∃ a, plan tables = .ok (a, plan.batch tables)) ∨ plan.batch tables = [] := by
  rw [batch]
  cases plan tables with
  | ok answer => exact .inl ⟨answer.1, rfl⟩
  | error e => exact .inr rfl

namespace Volume

variable {v : Volume} {tables : Bytes → Table} {name : String} {batch : Batch}

/-- The number of stale blocks is that of the previous version, and none if there is none. -/
theorem staleCount_eq_ok {previous : Option Nat} {stale : Nat}
    (h : v.staleCount name previous = .ok stale) :
    stale = (previous.map fun length => Layout.blockCount length v.blockSize).getD 0 := by
  cases previous with
  | none => exact (Except.ok.inj h).symm
  | some length => exact (storedCount_eq_ok h).2

theorem savePlan_eq_ok {blocks : List Bytes} {length : Nat}
    (h : v.savePlan name blocks length tables = .ok ((), batch)) :
    ∃ stored previous stale, stored.length = Layout.blockCount length v.blockSize ∧
      v.encodeBlocks length (Layout.blockCount length v.blockSize) blocks = .ok stored ∧
      v.lengthIn name tables = .ok previous ∧ v.staleCount name previous = .ok stale ∧
      batch = v.saveBatch name stored length stale := by
  obtain ⟨count, hcount, h⟩ := bind_eq_ok.1 h
  obtain ⟨-, rfl⟩ := Layout.countBlocks_eq_ok hcount
  by_cases hfew : blocks.length < Layout.blockCount length v.blockSize
  · simp [hfew, bind, Except.bind, throw, throwThe, MonadExceptOf.throw] at h
  · simp only [hfew, if_false] at h
    obtain ⟨previous, hprevious, h⟩ := bind_eq_ok.1 h
    obtain ⟨stale, hstale, h⟩ := bind_eq_ok.1 h
    obtain ⟨stored, hstored, h⟩ := bind_eq_ok.1 h
    obtain ⟨hlength, -⟩ := encodeBlocks_eq_ok_iff.1 hstored
    refine ⟨stored, previous, stale, ?_, hstored, hprevious, hstale,
      (congrArg Prod.snd (Except.ok.inj h)).symm⟩
    rw [← hlength, Nat.min_eq_left (Nat.le_of_not_lt hfew)]

theorem erasePlan_eq_ok {length : Nat} (h : v.erasePlan name length tables = .ok ((), batch)) :
    ∃ count, v.storedCount name length = .ok count ∧ batch = v.deleteBatch name count := by
  obtain ⟨count, hcount, h⟩ := bind_eq_ok.1 h
  exact ⟨count, hcount, (congrArg Prod.snd (Except.ok.inj h)).symm⟩

theorem deletePlan_eq_ok {there : Bool} (h : v.deletePlan name tables = .ok (there, batch)) :
    v.lengthIn name tables = .ok none ∧ batch = [] ∨
      ∃ length, v.lengthIn name tables = .ok (some length) ∧
        v.erasePlan name length tables = .ok ((), batch) := by
  obtain ⟨found, hfound, h⟩ := bind_eq_ok.1 h
  cases found with
  | none => exact .inl ⟨hfound, (congrArg Prod.snd (Except.ok.inj h)).symm⟩
  | some length =>
    obtain ⟨⟨⟨⟩, committed⟩, herase, h⟩ := bind_eq_ok.1 h
    obtain rfl : committed = batch := congrArg Prod.snd (Except.ok.inj h)
    exact .inr ⟨length, hfound, herase⟩

theorem renamePlan_eq_ok {source dest : String} {stored : List Bytes} {length : Nat}
    (h : v.renamePlan source dest stored length tables = .ok ((), batch)) :
    source = dest ∧ batch = [] ∨
      source ≠ dest ∧ ∃ previous stale, v.storedCount source length = .ok stored.length ∧
        v.lengthIn dest tables = .ok previous ∧ v.staleCount dest previous = .ok stale ∧
        batch = v.renameBatch source dest stored length stale := by
  unfold renamePlan at h
  by_cases hsame : source = dest
  · rw [if_pos hsame] at h
    exact .inl ⟨hsame, (congrArg Prod.snd (Except.ok.inj h)).symm⟩
  · rw [if_neg hsame] at h
    obtain ⟨count, hcount, h⟩ := bind_eq_ok.1 h
    obtain ⟨previous, hprevious, h⟩ := bind_eq_ok.1 h
    obtain ⟨stale, hstale, h⟩ := bind_eq_ok.1 h
    by_cases hlength : stored.length = count
    · simp only [hlength, ne_eq, not_true_eq_false, if_false] at h
      exact .inr ⟨hsame, previous, stale, hlength ▸ hcount, hprevious, hstale,
        (congrArg Prod.snd (Except.ok.inj h)).symm⟩
    · simp [hlength, bind, Except.bind, throw, throwThe, MonadExceptOf.throw] at h

/-- What mutations commit: nothing, or a batch that leaves no file that it writes without blocks. -/
inductive Planned (v : Volume) : Batch → Prop where
  | nothing : Planned v []
  | save (name : String) {stored : List Bytes} {length : Nat} (stale : Nat)
      (whole : stored.length = Layout.blockCount length v.blockSize) :
      Planned v (v.saveBatch name stored length stale)
  | delete (name : String) (count : Nat) : Planned v (v.deleteBatch name count)
  | rename (source dest : String) {stored : List Bytes} {length : Nat} (stale : Nat)
      (whole : stored.length = Layout.blockCount length v.blockSize) :
      Planned v (v.renameBatch source dest stored length stale)

theorem planned_of_savePlan {blocks : List Bytes} {length : Nat}
    (h : v.savePlan name blocks length tables = .ok ((), batch)) : v.Planned batch := by
  obtain ⟨stored, previous, stale, hwhole, -, -, -, rfl⟩ := savePlan_eq_ok h
  exact .save name stale hwhole

theorem planned_of_erasePlan {length : Nat} (h : v.erasePlan name length tables = .ok ((), batch)) :
    v.Planned batch := by
  obtain ⟨count, -, rfl⟩ := erasePlan_eq_ok h
  exact .delete name count

theorem planned_of_deletePlan {there : Bool}
    (h : v.deletePlan name tables = .ok (there, batch)) : v.Planned batch := by
  obtain ⟨-, rfl⟩ | ⟨length, -, herase⟩ := deletePlan_eq_ok h
  · exact .nothing
  · exact planned_of_erasePlan herase

theorem planned_of_renamePlan {source dest : String} {stored : List Bytes} {length : Nat}
    (h : v.renamePlan source dest stored length tables = .ok ((), batch)) : v.Planned batch := by
  obtain ⟨-, rfl⟩ | ⟨-, previous, stale, hcount, -, -, rfl⟩ := renamePlan_eq_ok h
  · exact .nothing
  · exact .rename source dest stale (storedCount_eq_ok hcount).2

end Volume

namespace Directory

variable {d : Directory} {tables : Bytes → Table} {batch : Batch}

theorem closed_of_ensureOpen {operation : String} (h : d.ensureOpen operation = .ok ()) :
    d.closed = false := by
  unfold ensureOpen at h
  split at h
  · cases h
  · rename_i hclosed
    simpa using hclosed

theorem storePlan_eq_ok {output : Output} (h : d.storePlan output tables = .ok ((), batch)) :
    d.closed = false ∧
      d.volume.savePlan output.name output.blocks.toList output.position tables =
        .ok ((), batch) := by
  obtain ⟨⟨⟩, hopen, h⟩ := bind_eq_ok.1 h
  exact ⟨closed_of_ensureOpen hopen, h⟩

theorem deleteFilePlan_eq_ok {name : String} (h : d.deleteFilePlan name tables = .ok ((), batch)) :
    ∃ there, d.volume.deletePlan name tables = .ok (there, batch) := by
  obtain ⟨⟨⟩, -, h⟩ := bind_eq_ok.1 h
  obtain ⟨⟨there, committed⟩, hdelete, h⟩ := bind_eq_ok.1 h
  obtain rfl : committed = batch := congrArg Prod.snd (Except.ok.inj h)
  exact ⟨there, hdelete⟩

theorem renameFilePlan_eq_ok {source dest : String}
    (h : d.renameFilePlan source dest tables = .ok ((), batch)) :
    d.closed = false ∧ ∃ length stored, d.volume.lengthIn source tables = .ok (some length) ∧
      d.volume.storedIn source length tables = .ok stored ∧
      d.volume.renamePlan source dest stored length tables = .ok ((), batch) := by
  obtain ⟨⟨⟩, hopen, h⟩ := bind_eq_ok.1 h
  obtain ⟨found, hfound, h⟩ := bind_eq_ok.1 h
  cases found with
  | none => cases h
  | some length =>
    obtain ⟨stored, hstored, h⟩ := bind_eq_ok.1 h
    exact ⟨closed_of_ensureOpen hopen, length, stored, hfound, hstored, h⟩

end Directory

/-- Every mutation commits one of these. -/
theorem Mutation.planned (m : Mutation) (d : Directory) (tables : Bytes → Table) :
    d.volume.Planned ((m.plan d).batch tables) := by
  rcases Plan.batch_cases (m.plan d) tables with ⟨⟨⟩, hplan⟩ | hnone
  · cases m with
    | closeOutput output => exact Volume.planned_of_savePlan (Directory.storePlan_eq_ok hplan).2
    | deleteFile name =>
      obtain ⟨there, hdelete⟩ := Directory.deleteFilePlan_eq_ok hplan
      exact Volume.planned_of_deletePlan hdelete
    | renameFile source dest =>
      obtain ⟨-, length, stored, -, -, hrename⟩ := Directory.renameFilePlan_eq_ok hplan
      exact Volume.planned_of_renamePlan hrename
    | save name blocks length => exact Volume.planned_of_savePlan hplan
    | erase name length =>
      have herase : d.volume.erasePlan name length tables = .ok ((), _) := hplan
      exact Volume.planned_of_erasePlan herase
    | rename source dest stored length => exact Volume.planned_of_renamePlan hplan
  · rw [hnone]
    exact .nothing

end BlockDir
