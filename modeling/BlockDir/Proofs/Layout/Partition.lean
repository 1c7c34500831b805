import BlockDir.Proofs.Layout.Blocks
import Mathlib

/-!
# Blocks as parts of a file

The first `count` blocks hold the first `count * size` bytes, as far as there are any (`sum_blockLen`),
and division tells in which block a byte lies and how far from its start (`place_iff`). So the blocks
that are counted make up the file: all but the last are full, none is empty, and every byte lies in just
one of them (`blocks_partition`). No block starts behind the end of the file, so starts of blocks fit in
64 bits if the length does.
-/

namespace BlockDir.Layout

variable {length size index : Nat}

theorem blockLen_le (length size index : Nat) : blockLen length size index ≤ size :=
  Nat.min_le_right _ _

/-- A block that another one follows is full. -/
theorem blockLen_of_followed (hsize : 0 < size) (h : index + 1 < blockCount length size) :
    blockLen length size index = size := by
  have hnext := (lt_blockCount_iff hsize).1 h
  rw [Nat.add_mul, Nat.one_mul] at hnext
  unfold blockLen
  omega

/-- Just the blocks that are counted hold something. -/
theorem blockLen_pos_iff (hsize : 0 < size) :
    0 < blockLen length size index ↔ index < blockCount length size := by
  rw [lt_blockCount_iff hsize, blockLen]
  omega

/-- The first blocks hold the first bytes, as many as there is room for and as there are. -/
theorem sum_blockLen (length size count : Nat) :
    ((List.range count).map (blockLen length size)).sum = min length (count * size) := by
  induction count with
  | zero => simp
  | succ count ih =>
    rw [List.sum_range_succ, ih, blockLen, Nat.add_mul, Nat.one_mul]
    omega

/-- What stands `offset` bytes into a block is the byte of the file from which division leads there. -/
theorem place_iff (hsize : 0 < size) {offset position : Nat} :
    offset < blockLen length size index ∧ index * size + offset = position ↔
      position < length ∧ index = position / size ∧ offset = position % size := by
  constructor
  · rintro ⟨hoffset, rfl⟩
    have hinside := Nat.lt_of_lt_of_le hoffset (blockLen_le length size index)
    have hsum : offset + size * index = index * size + offset := by ring
    obtain ⟨hindex, hrest⟩ := (Nat.div_mod_unique hsize).2 ⟨hsum, hinside⟩
    rw [blockLen] at hoffset
    exact ⟨by omega, hindex.symm, hrest.symm⟩
  · rintro ⟨hposition, rfl, rfl⟩
    have hplace := Nat.div_add_mod' position size
    have hinside := Nat.mod_lt position hsize
    refine ⟨?_, hplace⟩
    rw [blockLen]
    omega

/-- `count` blocks of `size` bytes make up a file of `length` bytes. -/
structure Partition (length size count : Nat) : Prop where
  /-- The start of every block fits in 64 bits. -/
  starts : ∀ index < count, index * size < 2 ^ 64
  full : ∀ index, index + 1 < count → blockLen length size index = size
  last : ∀ index, index + 1 = count →
    1 ≤ blockLen length size index ∧ blockLen length size index ≤ size
  whole : ((List.range count).map (blockLen length size)).sum = length
  /-- Every byte lies in the block that division tells. -/
  places : ∀ position < length,
    position / size < count ∧ position % size < blockLen length size (position / size)
  /-- What lies in a block is a byte of the file that lies in no other block. -/
  apart : ∀ index offset, offset < blockLen length size index →
    index * size + offset < length ∧
      (index * size + offset) / size = index ∧ (index * size + offset) % size = offset

/-- The blocks that are counted make up the file, whatever its length and the size of its blocks; they are
counted for a file that is to be loaded just if it fits in `maxBlocks` of them. -/
theorem blocks_partition (hsize : 0 < size) (hlength : length < 2 ^ 64) :
    Partition length size (blockCount length size) ∧
      ∀ name count, checkedCount name length size = .ok count ↔
        count = blockCount length size ∧ length ≤ maxBlocks * size := by
  have hparts : Partition length size (blockCount length size) := by
    refine ⟨?starts, ?full, ?last, ?whole, ?places, ?apart⟩
    case starts =>
      intro index hindex
      exact Nat.lt_trans ((lt_blockCount_iff hsize).1 hindex) hlength
    case full =>
      intro index hnext
      exact blockLen_of_followed hsize hnext
    case last =>
      intro index hlast
      exact ⟨(blockLen_pos_iff hsize).2 (by omega), blockLen_le length size index⟩
    case whole =>
      rw [sum_blockLen, Nat.min_eq_left ((blockCount_le_iff hsize).1 (Nat.le_refl _))]
    case places =>
      intro position hposition
      obtain ⟨hoffset, -⟩ := (place_iff hsize).2 ⟨hposition, rfl, rfl⟩
      exact ⟨div_lt_blockCount hsize hposition, hoffset⟩
    case apart =>
      intro index offset hoffset
      obtain ⟨hinside, hindex, hrest⟩ := (place_iff hsize).1 ⟨hoffset, rfl⟩
      exact ⟨hinside, hindex.symm, hrest.symm⟩
  refine ⟨hparts, ?_⟩
  intro name count
  rw [checkedCount_eq_ok_iff, ← blockCount_le_iff hsize]
  constructor
  · rintro ⟨-, rfl, hfew⟩
    exact ⟨rfl, hfew⟩
  · rintro ⟨rfl, hfew⟩
    exact ⟨hsize, rfl, hfew⟩

/-- The longest file that there can be, in the largest blocks that a configuration allows: its last block
lacks one byte, and it has too many blocks to be loaded. -/
theorem blocks_partition_longest :
    let length := 18446744073709551615
    let size := 536870912
    0 < size ∧ length < 2 ^ 64 ∧ blockCount length size = 34359738368 ∧
      blockLen length size 34359738367 = 536870911 ∧ Partition length size 34359738368 ∧
        ∀ name, checkedCount name length size ≠ .ok 34359738368 := by
  intro length size
  have hsize : 0 < size := by decide
  have hlength : length < 2 ^ 64 := by decide
  have hcount : blockCount length size = 34359738368 := by decide
  obtain ⟨hparts, hchecked⟩ := blocks_partition hsize hlength
  rw [hcount] at hparts
  refine ⟨hsize, hlength, hcount, by decide, hparts, ?_⟩
  intro name hok
  have hfits : length ≤ maxBlocks * size := ((hchecked name _).1 hok).2
  exact absurd hfits (by decide)

end BlockDir.Layout
