import BlockDir.Bytes.Lemmas
import BlockDir.Snappy.Decoder
import Mathlib

/-!
# The parts of the reader

How the reader cuts bytes off the front, what a copy makes of the output, also where it runs into the
bytes that it is just producing (`getElem?_copyBack`, `copied_take`), and how the reader goes on after an
element.
-/

namespace BlockDir.Snappy

theorem ofLittleEndian_append_zero (bytes : Bytes) :
    Bytes.ofLittleEndian (bytes ++ [0]) = Bytes.ofLittleEndian bytes := by
  induction bytes with
  | nil => rfl
  | cons byte rest ih => rw [List.cons_append, Bytes.ofLittleEndian, ih, ← Bytes.ofLittleEndian]

theorem split?_append (front rest : Bytes) :
    split? front.length (front ++ rest) = some (front, rest) := by
  rw [split?, List.take_left, List.drop_left, if_pos rfl]

theorem readLiteral_eq_ok_iff {produced total length : Nat} {bytes rest : Bytes} {e : Element} :
    readLiteral produced total length bytes = .ok (e, rest) ↔ ∃ front,
      e = .literal front ∧ bytes = front ++ rest ∧ front.length = length ∧
        length ≤ total - produced := by
  constructor
  · intro h
    rw [readLiteral] at h
    split at h
    · rename_i front left hsplit
      obtain ⟨hlength, hbytes⟩ := length_of_split? hsplit
      split at h
      · cases h
      · rename_i hroom
        obtain ⟨rfl, rfl⟩ := Prod.mk.inj (Except.ok.inj h)
        exact ⟨front, rfl, hbytes, hlength, Nat.not_lt.1 hroom⟩
    · cases h
  · rintro ⟨front, rfl, rfl, rfl, hroom⟩
    rw [readLiteral, split?_append]
    exact if_neg (Nat.not_lt.2 hroom)

/-- The bytes after a copy. -/
def copied (offset length : Nat) (out : Bytes) : Bytes := (copyBack offset length out.toArray).toList

theorem size_copyBack (offset length : Nat) (out : Array UInt8) :
    (copyBack offset length out).size = out.size + length := by
  induction length generalizing out with
  | zero => rfl
  | succ length ih =>
    rw [copyBack, ih, Array.size_push]
    omega

/-- A copy leaves what is there. -/
theorem getElem?_copyBack_of_lt {offset length index : Nat} {out : Array UInt8}
    (h : index < out.size) : (copyBack offset length out)[index]? = out[index]? := by
  induction length generalizing out with
  | zero => rfl
  | succ length ih =>
    rw [copyBack, ih (by rw [Array.size_push]; omega), Array.getElem?_push, if_neg (by omega)]

/-- Every byte of a copy equals the one `offset` places before it. -/
theorem getElem?_copyBack {offset length : Nat} {out : Array UInt8} (hoffset : 0 < offset)
    (hback : offset ≤ out.size) {index : Nat} (hindex : index < length) :
    (copyBack offset length out)[out.size + index]? =
      (copyBack offset length out)[out.size + index - offset]? := by
  induction length generalizing out index with
  | zero => omega
  | succ length ih =>
    rw [copyBack]
    cases index with
    | zero =>
      have hroom : out.size - offset < (out.push (out.getD (out.size - offset) 0)).size := by
        rw [Array.size_push]
        omega
      rw [getElem?_copyBack_of_lt (by simp), Nat.add_zero, getElem?_copyBack_of_lt hroom,
        Array.getElem?_push_size, Array.getElem?_push, if_neg (by omega),
        Array.getD_eq_getD_getElem?, Array.getElem?_eq_getElem (by omega)]
      rfl
    | succ index =>
      have hnext := @ih (out.push (out.getD (out.size - offset) 0))
        (by rw [Array.size_push]; omega) index (by omega)
      have hplace : out.size + (index + 1) = out.size + 1 + index := by omega
      rwa [Array.size_push, ← hplace] at hnext

/-- A copy reproduces the bytes ahead of `position` if they are those `offset` places before it. The
induction is on the length: each byte copied is there when the next one is asked for. -/
theorem copied_take {data : Bytes} {offset length position : Nat} (hoffset : 0 < offset)
    (hback : offset ≤ position) (hroom : position + length ≤ data.length)
    (hsame : (data.drop (position - offset)).take length = (data.drop position).take length) :
    copied offset length (data.take position) = data.take (position + length) := by
  induction length generalizing position with
  | zero => simp [copied, copyBack]
  | succ length ih =>
    have hbyte : (data.take position).toArray.getD ((data.take position).toArray.size - offset) 0 =
        data[position] := by
      have hsize : (data.take position).length = position := by
        rw [List.length_take]
        omega
      have hhead := congrArg (·[0]?) hsame
      simp only [List.getElem?_take, List.getElem?_drop, Nat.zero_lt_succ, if_true,
        Nat.add_zero] at hhead
      rw [List.getElem?_eq_getElem (by omega), List.getElem?_eq_getElem (by omega)] at hhead
      simp only [List.size_toArray, hsize]
      rw [Array.getD_eq_getD_getElem?, List.getElem?_toArray, List.getElem?_take_of_lt (by omega),
        List.getElem?_eq_getElem (by omega)]
      exact Option.some.inj hhead
    have hpush : (data.take position).toArray.push data[position] =
        (data.take (position + 1)).toArray := by
      rw [List.push_toArray, List.take_add_one, List.getElem?_eq_getElem (by omega)]
      rfl
    have htail : (data.drop (position + 1 - offset)).take length =
        (data.drop (position + 1)).take length := by
      have hrest := congrArg List.tail hsame
      rw [← List.drop_one, ← List.drop_one, List.drop_take, List.drop_take, List.drop_drop,
        List.drop_drop] at hrest
      have hindex : position - offset + 1 = position + 1 - offset := by omega
      rw [hindex] at hrest
      simpa using hrest
    have hnext := ih (by omega : offset ≤ position + 1) (by omega) htail
    rw [copied] at hnext ⊢
    rw [copyBack, hbyte, hpush, hnext]
    congr 1
    omega

theorem expand_cons {total : Nat} {tag : UInt8} {bytes rest : Bytes} {out : Array UInt8}
    {element : Element} (h : Element.read out.size total tag bytes = .ok (element, rest)) :
    expand total (tag :: bytes) out = expand total rest (element.replay out) := by
  rw [expand]
  split
  · rename_i e he
    rw [h] at he
    simp at he
  · rename_i e r he
    rw [h] at he
    simp only [Except.ok.injEq, Prod.mk.injEq] at he
    rw [← he.1, ← he.2]

end BlockDir.Snappy
