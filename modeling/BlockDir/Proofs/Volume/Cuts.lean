import BlockDir.Proofs.Volume.Effects

/-!
# Batches that are cut short

Wherever a batch for a file stops, it has done one of few things. A saving has put some first blocks
in place, or it has saved the whole file and removed either the stale blocks or none; a deletion has
done nothing, or it has removed the entry and either the blocks or none; a move is a saving and then
a deletion. So what is left of a file at any cut is told by the effects of whole batches.
-/

namespace BlockDir

namespace Volume

variable {v : Volume}

theorem take_blockWrites (name : String) (stored : List Bytes) (count : Nat) :
    (v.blockWrites name stored).take count = v.blockWrites name (stored.take count) := by
  have hzip : stored.zipIdx.take count = (stored.take count).zipIdx := by
    apply List.ext_getElem?
    intro index
    by_cases hindex : index < count <;> simp [hindex]
  rw [blockWrites, blockWrites, ← List.map_take, hzip]

theorem length_blockWrites (name : String) (stored : List Bytes) :
    (v.blockWrites name stored).length = stored.length := by
  simp [blockWrites]

/-- Removing no blocks is no write, and removing any is one. -/
theorem take_blockRemoval (name : String) (low high count : Nat) :
    ∃ last, (last = low ∨ last = high) ∧
      (v.blockRemoval name low high).take count = v.blockRemoval name low last := by
  have hnone : v.blockRemoval name low low = [] := by simp [blockRemoval, Batch.delete]
  cases count with
  | zero => exact ⟨low, .inl rfl, by rw [hnone, List.take_zero]⟩
  | succ count =>
    refine ⟨high, .inr rfl, List.take_of_length_le ?_⟩
    rw [blockRemoval, Batch.delete]
    split <;> simp

/-- Wherever a saving is cut, it has put some first blocks in place and done no more, or it has saved
the whole file. -/
theorem take_saveBatch (name : String) (stored : List Bytes) (length stale count : Nat) :
    (∃ few, (v.saveBatch name stored length stale).take count =
        v.blockWrites name (stored.take few)) ∨
      ∃ stale', (stale' = stored.length ∨ stale' = stale) ∧
        (v.saveBatch name stored length stale).take count =
          v.saveBatch name stored length stale' := by
  rcases Nat.lt_or_ge stored.length count with hmany | hfew
  · right
    have hfront : (v.blockWrites name stored ++ v.lengthWrite name length).length =
        stored.length + 1 := by
      rw [List.length_append, length_blockWrites]
      rfl
    obtain ⟨last, hlast, htake⟩ :=
      take_blockRemoval (v := v) name stored.length stale (count - (stored.length + 1))
    refine ⟨last, hlast, ?_⟩
    rw [saveBatch, List.take_append, List.take_of_length_le (by omega), hfront, htake, saveBatch]
  · left
    refine ⟨count, ?_⟩
    rw [saveBatch, List.append_assoc, List.take_append_of_le_length
      (by rwa [length_blockWrites]), take_blockWrites]

/-- Wherever a deletion is cut, it has done nothing, or it has removed the entry. -/
theorem take_deleteBatch (name : String) (blocks count : Nat) :
    (v.deleteBatch name blocks).take count = [] ∨
      ∃ removed, (removed = 0 ∨ removed = blocks) ∧
        (v.deleteBatch name blocks).take count = v.deleteBatch name removed := by
  cases count with
  | zero => exact .inl (List.take_zero ..)
  | succ count =>
    right
    obtain ⟨last, hlast, htake⟩ := take_blockRemoval (v := v) name 0 blocks count
    exact ⟨last, hlast, by rw [deleteBatch, deleteBatch, ← htake]; rfl⟩

/-- Wherever a move is cut, it has done a part of the saving, or all of it and a part of the
deletion. -/
theorem take_renameBatch (source dest : String) (stored : List Bytes) (length stale count : Nat) :
    (v.renameBatch source dest stored length stale).take count =
        (v.saveBatch dest stored length stale).take count ∨
      ∃ more, (v.renameBatch source dest stored length stale).take count =
        v.saveBatch dest stored length stale ++ (v.deleteBatch source stored.length).take more := by
  rcases Nat.le_total count (v.saveBatch dest stored length stale).length with hfew | hmany
  · exact .inl (List.take_append_of_le_length hfew)
  · exact .inr ⟨_, by rw [renameBatch, List.take_append, List.take_of_length_le hmany]⟩

end Volume

end BlockDir
