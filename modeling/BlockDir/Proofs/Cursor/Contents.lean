import BlockDir.Cursor.Reader
import BlockDir.Cursor.Writer
import BlockDir.Proofs.Layout.Blocks

/-!
# What outputs collect and cursors read

An output always holds the blocks of the bytes that were written to it, however the writes were cut
(`Output.Collected`). Conversely, any part of a file that consists of the blocks of some bytes is
read as that part of the bytes (`LoadedFile.bytesAt_ofContent`).
-/

namespace BlockDir

namespace Output

/-- Filling up the last block and cutting the rest is cutting the whole. -/
theorem fill_chunks {n : Nat} (hn : 0 < n) {blocks : Array Bytes} {content : Bytes}
    (h : blocks.toList = chunks n content) (data : Bytes) :
    (fill n blocks data).toList = chunks n (content ++ data) := by
  rcases List.eq_nil_or_concat blocks.toList with hnil | ⟨init, last, hlast⟩
  · have hcontent : content = [] := by
      rw [← flatten_chunks n content, ← h, hnil]
      rfl
    have hback : blocks.back? = none := by
      rw [← Array.getLast?_toList, hnil]
      rfl
    rw [fill, hback, hcontent]
    rfl
  · rw [List.concat_eq_append] at hlast
    have hback : blocks.back? = some last := by
      rw [← Array.getLast?_toList, hlast]
      simp
    have hpieces : chunks n content = init ++ [last] := h.symm.trans hlast
    have hfull := length_of_mem_init hn hpieces
    have hcontent : content = init.flatten ++ last := by
      rw [← flatten_chunks n content, hpieces]
      simp
    have hwhole : chunks n (content ++ data) = init ++ chunks n (last ++ data) := by
      rw [hcontent, List.append_assoc, chunks_flatten_append hn hfull]
    have hbound : last ≠ [] ∧ last.length ≤ n := by
      have hmem := mem_chunks (hpieces ▸ List.mem_append_right init List.mem_cons_self)
      exact ⟨hmem.1, by omega⟩
    rw [fill, hback, hwhole]
    dsimp only
    split
    · rename_i hroom
      have hone : ∀ piece ∈ [last], piece.length = n := by
        intro piece hmem
        rw [List.mem_singleton.1 hmem]
        omega
      have hrest := chunks_flatten_append hn hone data
      simp only [List.flatten_cons, List.flatten_nil, List.append_nil] at hrest
      rw [hrest, Array.toList_appendList, hlast, List.append_assoc]
    · rename_i hroom
      have hsplit : chunks n (last ++ data) =
          (last ++ data.take (n - last.length)) :: chunks n (data.drop (n - last.length)) := by
        rw [chunks_eq_take_cons hn (by simp [hbound.1]), List.take_append, List.drop_append,
          List.take_of_length_le hbound.2, List.drop_of_length_le hbound.2, List.nil_append]
      rw [hsplit, Array.toList_appendList, Array.toList_push, Array.toList_pop, hlast]
      simp

/-- An output that holds the blocks of `content`, and no more. -/
structure Collected (output : Output) (content : Bytes) : Prop where
  blocks : output.blocks.toList = chunks output.blockSize content
  position : output.position = content.length

theorem collected_new (name : String) (blockSize : Nat) (checksum : Bool) :
    (Output.new name blockSize checksum).Collected [] :=
  ⟨by simp [Output.new], rfl⟩

theorem Collected.write {output : Output} (hsize : 0 < output.blockSize) {content : Bytes}
    (h : output.Collected content) (data : Bytes) :
    (output.write data).Collected (content ++ data) where
  blocks := fill_chunks hsize h.blocks data
  position := by
    rw [List.length_append, ← h.position]
    rfl

/-- An output to which `writes` were written in turn. -/
def written (name : String) (blockSize : Nat) (checksum : Bool) (writes : List Bytes) : Output :=
  writes.foldl Output.write (Output.new name blockSize checksum)

/-- An output collects what is written to it, in however many pieces. -/
theorem collected_written (name : String) {blockSize : Nat} (hsize : 0 < blockSize)
    (checksum : Bool) (writes : List Bytes) :
    (written name blockSize checksum writes).name = name ∧
      (written name blockSize checksum writes).blockSize = blockSize ∧
      (written name blockSize checksum writes).Collected writes.flatten := by
  unfold written
  induction writes using List.reverseRecOn with
  | nil => exact ⟨rfl, rfl, collected_new name blockSize checksum⟩
  | append_singleton front data ih =>
    obtain ⟨hname, hblock, hcollected⟩ := ih
    rw [List.foldl_append, List.flatten_append, List.flatten_singleton]
    refine ⟨hname, hblock, hcollected.write ?_ data⟩
    rw [hblock]
    exact hsize

end Output

namespace LoadedFile

/-- The blocks of `content` as a file. -/
def ofContent (n : Nat) (content : Bytes) : LoadedFile :=
  ⟨(chunks n content).toArray, content.length, n⟩

theorem block_ofContent {n : Nat} (hn : 0 < n) (content : Bytes) (position : Nat)
    (h : position < content.length) :
    (ofContent n content).block (position / n) =
      .ok ((content.drop (position / n * n)).take n) := by
  have hindex := Layout.div_lt_blockCount hn h
  rw [block, ofContent]
  simp only [List.getElem?_toArray, getElem?_chunks hn, if_pos hindex]

/-- What one block holds from a position on. -/
theorem piece_ofContent (n : Nat) (content : Bytes) (position count : Nat) :
    (((content.drop (position / n * n)).take n).drop (position % n)).take count =
      (content.drop position).take (min count (n - position % n)) := by
  have hsum : position / n * n + position % n = position := Nat.div_add_mod' position n
  rw [List.drop_take, List.drop_drop, hsum, List.take_take]

theorem gather_ofContent {n : Nat} (hn : 0 < n) (content : Bytes) (found : List Bytes)
    (position count : Nat) (h : position + count ≤ content.length) :
    ∃ pieces, (ofContent n content).gather found position count = .ok (pieces ++ found) ∧
      pieces.reverse.flatten = (content.drop position).take count := by
  induction count using Nat.strong_induction_on generalizing found position with
  | h count ih =>
    rw [gather]
    by_cases hzero : count = 0
    · exact ⟨[], by rw [dif_pos hzero]; rfl, by simp [hzero]⟩
    · have hblock := block_ofContent hn content position (by omega)
      have hpiece := piece_ofContent n content position count
      have hroom : 0 < n - position % n := Nat.sub_pos_of_lt (Nat.mod_lt position hn)
      have hsize : (ofContent n content).blockSize = n := rfl
      rw [dif_neg hzero]
      simp only [hsize, hblock, hpiece]
      -- the piece takes at least one byte, and what is left is gathered from behind it
      generalize hk : min count (n - position % n) = k
      have hpos : 0 < k := by omega
      have hlength : ((content.drop position).take k).length = k := by
        rw [List.length_take, List.length_drop]
        omega
      have hne : (content.drop position).take k ≠ [] := by
        rw [← List.length_pos_iff, hlength]
        exact hpos
      rw [dif_neg hne, hlength]
      obtain ⟨pieces, hok, hpieces⟩ := ih (count - k) (by omega)
        ((content.drop position).take k :: found) (position + k) (by omega)
      refine ⟨pieces ++ [(content.drop position).take k], by simpa using hok, ?_⟩
      rw [List.reverse_append, List.reverse_singleton, List.singleton_append, List.flatten_cons,
        hpieces, ← List.drop_drop]
      have hcount : count = k + (count - k) := by omega
      rw [hcount, List.take_add]
      simp

/-- Any part of a file is read as that part of its content. -/
theorem bytesAt_ofContent {n : Nat} (hn : 0 < n) (content : Bytes) (position count : Nat)
    (h : position + count ≤ content.length) :
    (ofContent n content).bytesAt position count = .ok ((content.drop position).take count) := by
  obtain ⟨pieces, hok, hpieces⟩ := gather_ofContent hn content [] position count h
  rw [bytesAt, hok, List.append_nil, ← hpieces]
  rfl

end LoadedFile

end BlockDir
