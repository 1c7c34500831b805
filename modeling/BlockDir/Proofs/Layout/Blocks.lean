import BlockDir.Bytes.Lemmas
import BlockDir.Chunks
import BlockDir.Layout
import Mathlib

/-!
# Blocks of a file

Cutting bytes into pieces of the block size gives exactly the blocks that the layout counts, each of
the length it says (`length_chunks`, `getElem?_chunks`). Conversely, blocks of those lengths are the
pieces of what they make up (`eq_chunks_of_lengths`), so a file is known by its bytes alone. Counting is
refused only for blocks of no bytes and for files of too many blocks (`checkedCount_eq_ok_iff`).
-/

namespace BlockDir

variable {α : Type}

theorem chunks_eq_take_cons {n : Nat} (hn : 0 < n) {xs : List α} (hxs : xs ≠ []) :
    chunks n xs = xs.take n :: chunks n (xs.drop n) := by
  cases xs with
  | nil => exact absurd rfl hxs
  | cons x rest =>
    obtain ⟨m, rfl⟩ := Nat.exists_eq_succ_of_ne_zero (Nat.ne_of_gt hn)
    rw [chunks_cons]
    rfl

/-- A list no longer than a piece is one piece. -/
theorem chunks_of_length_le {n : Nat} {xs : List α} (hxs : xs ≠ []) (h : xs.length ≤ n) :
    chunks n xs = [xs] := by
  have hn : 0 < n := Nat.lt_of_lt_of_le (List.length_pos_iff.2 hxs) h
  rw [chunks_eq_take_cons hn hxs, List.take_of_length_le h, List.drop_of_length_le h, chunks_nil]

/-- Full pieces in front stay as they are, whatever follows. -/
theorem chunks_flatten_append {n : Nat} (hn : 0 < n) {full : List (List α)}
    (hfull : ∀ piece ∈ full, piece.length = n) (rest : List α) :
    chunks n (full.flatten ++ rest) = full ++ chunks n rest := by
  induction full with
  | nil => simp
  | cons piece full ih =>
    have hpiece : piece.length = n := hfull piece List.mem_cons_self
    have hne : piece ≠ [] := List.length_pos_iff.1 (by omega)
    rw [List.flatten_cons, List.append_assoc, chunks_eq_take_cons hn (by simp [hne]),
      List.take_left' hpiece, List.drop_left' hpiece,
      ih fun p hp => hfull p (List.mem_cons_of_mem _ hp), List.cons_append]

/-- All pieces but the last are full. -/
theorem length_of_mem_init {n : Nat} (hn : 0 < n) {xs last : List α} {init : List (List α)}
    (h : chunks n xs = init ++ [last]) : ∀ piece ∈ init, piece.length = n := by
  induction init generalizing xs with
  | nil => simp
  | cons first init ih =>
    have hxs : xs ≠ [] := by
      rintro rfl
      simp at h
    rw [chunks_eq_take_cons hn hxs, List.cons_append] at h
    obtain ⟨hfirst, hrest⟩ := List.cons.inj h
    have hdrop : xs.drop n ≠ [] := by
      intro hnil
      rw [hnil, chunks_nil] at hrest
      simp at hrest
    have hlength : n < xs.length := by
      rw [← List.length_pos_iff, List.length_drop] at hdrop
      omega
    intro piece hpiece
    rcases List.mem_cons.1 hpiece with rfl | hpiece
    · rw [← hfirst, List.length_take]
      omega
    · exact ih hrest piece hpiece

namespace Layout

@[simp] theorem blockCount_zero (size : Nat) : blockCount 0 size = 0 := by
  rcases Nat.eq_zero_or_pos size with rfl | h
  · simp [blockCount]
  · rw [blockCount, Nat.div_eq_of_lt (by omega)]

theorem blockCount_mono {length more : Nat} (h : length ≤ more) (size : Nat) :
    blockCount length size ≤ blockCount more size :=
  Nat.div_le_div_right (Nat.add_le_add_right h _)

theorem blockCount_pos {length size : Nat} (hsize : 0 < size) (hlength : 0 < length) :
    0 < blockCount length size := by
  unfold blockCount
  exact Nat.div_pos (by omega) hsize

/-- The first block takes up to `size` bytes away. -/
theorem blockCount_step {length size : Nat} (hsize : 0 < size) (hlength : 0 < length) :
    blockCount length size = blockCount (length - size) size + 1 := by
  rcases Nat.le_total length size with h | h
  · have hzero : length - size = 0 := by omega
    rw [hzero, blockCount_zero, blockCount]
    have hbound : length + (size - 1) < 2 * size := by omega
    exact Nat.div_eq_of_lt_le (by omega) (by omega)
  · rw [blockCount, blockCount]
    have hsplit : length + (size - 1) = length - size + (size - 1) + size := by omega
    rw [hsplit, Nat.add_div_right _ hsize]

theorem lt_blockCount_iff {length size index : Nat} (hsize : 0 < size) :
    index < blockCount length size ↔ index * size < length := by
  rw [blockCount, Nat.lt_iff_add_one_le, Nat.le_div_iff_mul_le hsize, Nat.add_mul]
  omega

theorem blockCount_le_iff {length size count : Nat} (hsize : 0 < size) :
    blockCount length size ≤ count ↔ length ≤ count * size := by
  rw [← Nat.not_lt, lt_blockCount_iff hsize, Nat.not_lt]

/-- The block in which a byte of the file lies is one of its blocks. -/
theorem div_lt_blockCount {length size position : Nat} (hsize : 0 < size) (h : position < length) :
    position / size < blockCount length size :=
  (lt_blockCount_iff hsize).2 (Nat.lt_of_le_of_lt (Nat.div_mul_le_self position size) h)

theorem blockLen_zero (length size : Nat) : blockLen length size 0 = min length size := by
  simp [blockLen]

theorem blockLen_succ (length size index : Nat) :
    blockLen length size (index + 1) = blockLen (length - size) size index := by
  simp only [blockLen, Nat.add_mul]
  omega

theorem countBlocks_of_pos {size : Nat} (hsize : 0 < size) (length : Nat) :
    countBlocks length size = .ok (blockCount length size) :=
  if_neg (Nat.ne_of_gt hsize)

theorem countBlocks_eq_ok {length size count : Nat} (h : countBlocks length size = .ok count) :
    0 < size ∧ count = blockCount length size := by
  unfold countBlocks at h
  split at h
  · cases h
  · rename_i hsize
    exact ⟨Nat.pos_of_ne_zero hsize, (Except.ok.inj h).symm⟩

theorem checkedCount_of_pos {size : Nat} (hsize : 0 < size) (name : String) (length : Nat) :
    checkedCount name length size =
      if maxBlocks < blockCount length size then
        .error (.damaged (.tooManyBlocks name length (blockCount length size) maxBlocks))
      else .ok (blockCount length size) := by
  rw [checkedCount, countBlocks_of_pos hsize]

/-- Files of up to `maxBlocks` blocks are counted. -/
theorem checkedCount_eq_ok_iff {name : String} {length size count : Nat} :
    checkedCount name length size = .ok count ↔
      0 < size ∧ count = blockCount length size ∧ count ≤ maxBlocks := by
  rcases Nat.eq_zero_or_pos size with rfl | hsize
  · simp [checkedCount, countBlocks]
  · rw [checkedCount_of_pos hsize]
    split
    · rename_i hmany
      constructor
      · intro h
        cases h
      · rintro ⟨-, rfl, hfew⟩
        exact absurd hmany (Nat.not_lt.2 hfew)
    · rename_i hfew
      constructor
      · intro h
        obtain rfl := Except.ok.inj h
        exact ⟨hsize, rfl, Nat.le_of_not_lt hfew⟩
      · rintro ⟨-, rfl, -⟩
        rfl

end Layout

open Layout

theorem length_chunks {n : Nat} (hn : 0 < n) (xs : List α) :
    (chunks n xs).length = blockCount xs.length n := by
  induction hlength : xs.length using Nat.strong_induction_on generalizing xs with
  | h length ih =>
    rcases Decidable.em (xs = []) with rfl | hxs
    · simp at hlength
      simp [← hlength]
    · have hpos := List.length_pos_iff.2 hxs
      rw [chunks_eq_take_cons hn hxs, List.length_cons,
        ih (xs.drop n).length (by rw [List.length_drop]; omega) _ rfl, List.length_drop, hlength,
        ← blockCount_step hn (by omega)]

/-- Piece `i` is what stands at its place. -/
theorem getElem?_chunks {n : Nat} (hn : 0 < n) (xs : List α) (i : Nat) :
    (chunks n xs)[i]? =
      if i < blockCount xs.length n then some ((xs.drop (i * n)).take n) else none := by
  induction i generalizing xs with
  | zero =>
    rcases Decidable.em (xs = []) with rfl | hxs
    · simp
    · have hpos := blockCount_pos hn (List.length_pos_iff.2 hxs)
      rw [chunks_eq_take_cons hn hxs, if_pos hpos]
      simp
  | succ i ih =>
    rcases Decidable.em (xs = []) with rfl | hxs
    · simp
    · have hdrop : (xs.drop n).drop (i * n) = xs.drop ((i + 1) * n) := by
        rw [List.drop_drop]
        congr 1
        ring
      rw [chunks_eq_take_cons hn hxs, List.getElem?_cons_succ, ih, List.length_drop, hdrop]
      have hstep := blockCount_step hn (List.length_pos_iff.2 hxs)
      simp only [hstep, Nat.add_lt_add_iff_right]

/-- Every block has the length that the layout gives it. -/
theorem length_of_getElem?_chunks {n : Nat} (hn : 0 < n) {xs block : List α} {i : Nat}
    (h : (chunks n xs)[i]? = some block) : block.length = blockLen xs.length n i := by
  rw [getElem?_chunks hn] at h
  split at h
  · rw [← Option.some.inj h, List.length_take, List.length_drop, blockLen]
    omega
  · exact absurd h (by simp)

/-- Blocks of the lengths that the layout gives are the pieces of the bytes that they make up. -/
theorem eq_chunks_of_lengths {n : Nat} (hn : 0 < n) {blocks : List (List α)} {length : Nat}
    (hcount : blocks.length = blockCount length n)
    (hlengths : ∀ i block, blocks[i]? = some block → block.length = blockLen length n i) :
    blocks.flatten.length = length ∧ chunks n blocks.flatten = blocks := by
  induction blocks generalizing length with
  | nil =>
    have hzero : length = 0 := by
      by_contra hne
      have hpos := blockCount_pos hn (Nat.pos_of_ne_zero hne)
      rw [List.length_nil] at hcount
      omega
    simp [hzero]
  | cons block rest ih =>
    have hpos : 0 < length := by
      by_contra hzero
      have heq : length = 0 := by omega
      rw [heq, blockCount_zero] at hcount
      simp at hcount
    have hstep := blockCount_step hn hpos
    have hblock := hlengths 0 block rfl
    rw [blockLen_zero] at hblock
    have hrest : rest.length = blockCount (length - n) n := by
      rw [List.length_cons] at hcount
      omega
    obtain ⟨hflat, hchunks⟩ := ih hrest
      (fun i b hb => by rw [hlengths (i + 1) b (by simpa using hb), blockLen_succ])
    refine ⟨by rw [List.flatten_cons, List.length_append, hflat, hblock]; omega, ?_⟩
    -- only the last block may be short
    rcases Nat.lt_or_ge n length with hlong | hshort
    · have hfull : ∀ piece ∈ [block], piece.length = n := by
        intro piece hpiece
        rw [List.mem_singleton.1 hpiece, hblock]
        omega
      have happend := chunks_flatten_append hn hfull rest.flatten
      simpa [hchunks] using happend
    · have hnil : rest = [] := by
        have hzero : length - n = 0 := by omega
        rw [hzero, blockCount_zero] at hstep
        rw [List.length_cons] at hcount
        exact List.length_eq_zero_iff.1 (by omega)
      subst hnil
      have hne : block ≠ [] := List.length_pos_iff.1 (by omega)
      simpa using chunks_of_length_le hne (by omega)

namespace Layout

@[simp] theorem length_encodeLength (length : Nat) : (encodeLength length).length = lengthBytes :=
  Bytes.length_bigEndian _ _

/-- A stored length is read back if it fits in 64 bits. -/
theorem toNat_encodeLength {length : Nat} (h : length < 2 ^ 64) :
    (encodeLength length).toNat = length := by
  rw [encodeLength, Bytes.toNat_bigEndian]
  exact Nat.mod_eq_of_lt (by rw [lengthBytes]; omega)

theorem decodeLength_encodeLength (name : String) {length : Nat} (h : length < 2 ^ 64) :
    decodeLength name (encodeLength length) = .ok length := by
  rw [decodeLength, if_pos (length_encodeLength length), toNat_encodeLength h]

/-- A stored length of the right width is the stored form of the length it denotes. -/
theorem encodeLength_toNat {stored : Bytes} (h : stored.length = lengthBytes) :
    encodeLength stored.toNat = stored := by
  rw [encodeLength, ← h, Bytes.bigEndian_toNat]

theorem decodeLength_eq_ok_iff (name : String) {stored : Bytes} {length : Nat} :
    decodeLength name stored = .ok length ↔ stored.length = lengthBytes ∧ stored.toNat = length := by
  unfold decodeLength
  split <;> simp [*]

end Layout

end BlockDir
