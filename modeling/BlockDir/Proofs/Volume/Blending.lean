import BlockDir.Proofs.Volume.Files

/-!
# Files put together from two versions

A reader who has the length of one version of a file and finds some first blocks of it, but blocks of
another version behind them, takes them for a file if the other version reaches far enough: a block is
refused only if it is shorter than its place. What is read then is a blend of the two
(`Volume.decodeBlocks_blend`).
-/

namespace BlockDir

/-- The first `cut` bytes of `old`, and behind them what `new` has in the place of the others. -/
def blend {α : Type} (cut : Nat) (old new : List α) : List α :=
  old.take cut ++ (new.take old.length).drop cut

section

variable {α : Type} {old new : List α}

theorem getElem?_blend (cut : Nat) (old new : List α) (i : Nat) :
    (blend cut old new)[i]? =
      if i < cut then old[i]? else if i < old.length then new[i]? else none := by
  rw [blend, List.getElem?_append, List.length_take, List.getElem?_take, List.getElem?_drop,
    List.getElem?_take]
  by_cases hcut : i < cut
  · rw [if_pos hcut, if_pos hcut]
    by_cases hlength : i < old.length
    · rw [if_pos (by omega)]
    · have hnone : old[i]? = none := List.getElem?_eq_none (by omega)
      rw [if_neg (by omega), if_neg (by omega), hnone]
  · rw [if_neg hcut, if_neg (by omega)]
    by_cases hlength : i < old.length
    · have hplace : cut + (i - min cut old.length) = i := by omega
      rw [if_neg hcut, if_pos hlength, hplace, if_pos hlength]
    · rw [if_neg hcut, if_neg hlength, if_neg (by omega)]

theorem blend_of_le {cut : Nat} (h : old.length ≤ cut) (new : List α) : blend cut old new = old := by
  have hnone : (new.take old.length).drop cut = [] := by
    apply List.drop_of_length_le
    rw [List.length_take]
    omega
  rw [blend, hnone, List.take_of_length_le h, List.append_nil]

theorem blend_self (cut : Nat) (xs : List α) : blend cut xs xs = xs := by
  rw [blend, List.take_length, List.take_append_drop]

/-- Nothing can be told of bytes that are only appended. -/
theorem blend_append (cut : Nat) (old more : List α) : blend cut old (old ++ more) = old := by
  rw [blend, List.take_left, List.take_append_drop]

theorem blend_zero (h : old.length = new.length) : blend 0 old new = new := by
  rw [blend, h, List.take_length, List.take_zero, List.drop_zero, List.nil_append]

theorem length_blend {cut : Nat} (h : old.length ≤ cut ∨ old.length ≤ new.length) :
    (blend cut old new).length = old.length := by
  rw [blend, List.length_append, List.length_drop, List.length_take, List.length_take]
  omega

/-- The pieces of a blend at the end of a piece are pieces of the two, those of `new` no longer than
the place in `old`. -/
theorem piece_blend (n cut i : Nat) (old new : List α) :
    ((blend (cut * n) old new).drop (i * n)).take n =
      if i < cut then (old.drop (i * n)).take n
      else (new.drop (i * n)).take (Layout.blockLen old.length n i) := by
  apply List.ext_getElem?
  intro j
  rw [List.getElem?_take, List.getElem?_drop, getElem?_blend]
  by_cases hcut : i < cut
  · have hend : i * n + n ≤ cut * n := by
      rw [← Nat.succ_mul]
      exact Nat.mul_le_mul_right n hcut
    rw [if_pos hcut, List.getElem?_take, List.getElem?_drop]
    by_cases hj : j < n
    · rw [if_pos hj, if_pos hj, if_pos (by omega)]
    · rw [if_neg hj, if_neg hj]
  · have hstart : cut * n ≤ i * n := Nat.mul_le_mul_right n (Nat.not_lt.1 hcut)
    rw [if_neg hcut, List.getElem?_take, List.getElem?_drop, Layout.blockLen]
    by_cases hj : j < n
    · rw [if_pos hj, if_neg (by omega)]
      by_cases hlength : i * n + j < old.length
      · rw [if_pos hlength, if_pos (by omega)]
      · rw [if_neg hlength, if_neg (by omega)]
    · rw [if_neg hj, if_neg (by omega)]

/-- If `new` fills all places of `old` from some piece on, it is at least as long, or there are none. -/
theorem le_length_of_fills {n cut : Nat} (hn : 0 < n)
    (hfills : ∀ index, cut ≤ index → index < Layout.blockCount old.length n →
      Layout.blockLen old.length n index ≤ ((new.drop (index * n)).take n).length) :
    old.length ≤ cut * n ∨ old.length ≤ new.length := by
  by_cases hcut : old.length ≤ cut * n
  · exact .inl hcut
  · right
    have hcount : cut < Layout.blockCount old.length n :=
      (Layout.lt_blockCount_iff hn).2 (Nat.not_le.1 hcut)
    obtain ⟨last, hlast⟩ := Nat.exists_eq_succ_of_ne_zero (Nat.ne_zero_of_lt hcount)
    have hstart : last * n < old.length := by
      rw [← Layout.lt_blockCount_iff hn, hlast]
      exact Nat.lt_succ_self last
    have hend : old.length ≤ (last + 1) * n :=
      (Layout.blockCount_le_iff hn).1 (Nat.le_of_eq hlast)
    -- the last place is filled as far as `old` reaches
    have hlong := hfills last (by omega) (by omega)
    rw [List.length_take, List.length_drop, Layout.blockLen] at hlong
    rw [Nat.add_mul, Nat.one_mul] at hend
    omega

end

namespace Volume

variable {v : Volume} {name : String}

/-- Where the first `cut` blocks that are found are those of `old` and the others those of `new`, a
reader who has the length of `old` reads a blend of the two; and `new` is at least as long unless all
of it is from `old`. -/
theorem decodeBlocks_blend (hv : v.Proper) {old new : Bytes} {cut : Nat} {stored blocks : List Bytes}
    (hcount : stored.length = Layout.blockCount old.length v.blockSize)
    (hstored : ∀ index value, stored[index]? = some value →
      (v.storedForms (if index < cut then old else new))[index]? = some value)
    (hblocks : v.decodeBlocks name old.length stored = .ok blocks) :
    let content := blend (cut * v.blockSize) old new
    blocks = chunks v.blockSize content ∧ content.length = old.length ∧
      (content = old ∨ old.length ≤ new.length) := by
  intro content
  have hpos := hv.blockSize_pos
  obtain ⟨hlength, hdecode⟩ := decodeBlocks_eq_ok_iff.1 hblocks
  -- each block that was found fills its place in `old`, and is cut there
  have hplace : ∀ index, (hindex : index < blocks.length) →
      let piece := ((if index < cut then old else new).drop (index * v.blockSize)).take v.blockSize
      Layout.blockLen old.length v.blockSize index ≤ piece.length ∧
        blocks[index] = piece.take (Layout.blockLen old.length v.blockSize index) := by
    intro index hindex piece
    have hfound := hdecode index (hlength ▸ hindex) hindex
    obtain ⟨-, hvalue⟩ := (getElem?_storedForms_eq_some_iff hv).1
      (hstored index _ (List.getElem?_eq_getElem (hlength ▸ hindex)))
    rw [hvalue] at hfound
    exact (decodeBlock_form_eq_ok_iff hv (List.length_take_le _ _)).1 hfound
  have hreach : old.length ≤ cut * v.blockSize ∨ old.length ≤ new.length := by
    apply le_length_of_fills hpos
    intro index hcut hindex
    have hlong := (hplace index (by omega)).1
    rw [if_neg (Nat.not_lt.2 hcut)] at hlong
    exact hlong
  have hsame : content.length = old.length := length_blend hreach
  refine ⟨?_, hsame, ?_⟩
  · apply List.ext_getElem?
    intro index
    rw [getElem?_chunks hpos, hsame, ← hcount, hlength, piece_blend]
    by_cases hindex : index < blocks.length
    · rw [List.getElem?_eq_getElem hindex, if_pos hindex, (hplace index hindex).2]
      have hbound : Layout.blockLen old.length v.blockSize index ≤ v.blockSize := Nat.min_le_right _ _
      split
      · rw [List.take_take, Option.some.injEq, List.take_eq_take_iff, List.length_drop,
          Layout.blockLen]
        omega
      · rw [List.take_take, Nat.min_eq_left hbound]
    · rw [if_neg hindex, List.getElem?_eq_none (Nat.not_lt.1 hindex)]
  · rcases hreach with hall | hlong
    · exact .inl (blend_of_le hall new)
    · exact .inr hlong

end Volume

end BlockDir
