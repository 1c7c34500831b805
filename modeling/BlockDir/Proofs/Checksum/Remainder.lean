import BlockDir.Crc32
import Mathlib

/-!
# The check value as a remainder

What the standard says of CRC-32, over polynomials with coefficients in `ZMod 2`. A byte string is a
polynomial whose coefficients are its bits, from the highest power down, with the low bit of each byte
first. The check value is the remainder of this polynomial, 32 places up, by the generator; the first 32
bits and the remainder are complemented, and the low bit of the value stands for the highest power of
the remainder (`IsChecksum`). A register holds a remainder in the same way, and a byte that is fed moves
it on by eight places (`ofWord_register`), so what is computed is the check value of the standard
(`isChecksum_iff`).
-/

namespace BlockDir.Crc32

open Polynomial

noncomputable section

/-- The generator polynomial. -/
def generator : (ZMod 2)[X] :=
  X ^ 32 + X ^ 26 + X ^ 23 + X ^ 22 + X ^ 16 + X ^ 12 + X ^ 11 + X ^ 10 + X ^ 8 + X ^ 7 + X ^ 5 +
    X ^ 4 + X ^ 2 + X + 1

/-- The polynomial of a word of `width` bits, the low bit first. -/
def ofWord (width n : Nat) : (ZMod 2)[X] :=
  ∑ place ∈ Finset.range width, if n.testBit place then X ^ (width - 1 - place) else 0

/-- The polynomial of a byte string. -/
def ofBytes (bytes : Bytes) : (ZMod 2)[X] :=
  bytes.foldl (fun front byte => X ^ 8 * front + ofWord 8 byte.toNat) 0

/-- Thirty-two bits that are all set. -/
def ones : (ZMod 2)[X] := ∑ place ∈ Finset.range 32, X ^ place

/-- Whether a value is the check value of a byte string by the standard. -/
def IsChecksum (bytes : Bytes) (value : UInt32) : Prop :=
  ofWord 32 value.toNat =
    (X ^ 32 * ofBytes bytes + X ^ (8 * bytes.length) * ones) %ₘ generator + ones

variable {width : Nat}

theorem ofWord_xor (m n : Nat) : ofWord width (m ^^^ n) = ofWord width m + ofWord width n := by
  rw [ofWord, ofWord, ofWord, ← Finset.sum_add_distrib]
  refine Finset.sum_congr rfl fun place _ => ?_
  rw [Nat.testBit_xor]
  cases m.testBit place <;> cases n.testBit place <;> simp [CharTwo.add_self_eq_zero]

theorem degree_ofWord_lt (n : Nat) : (ofWord width n).degree < width := by
  rw [← mem_degreeLT]
  refine Submodule.sum_mem _ fun place hplace => ?_
  have hlt := Finset.mem_range.1 hplace
  split
  · rw [mem_degreeLT]
    refine (degree_X_pow_le _).trans_lt ?_
    exact_mod_cast (by omega : width - 1 - place < width)
  · exact Submodule.zero_mem _

theorem coeff_ofWord {n place : Nat} (h : place < width) :
    (ofWord width n).coeff (width - 1 - place) = if n.testBit place then 1 else 0 := by
  rw [ofWord, finsetSum_coeff, Finset.sum_eq_single place]
  · split <;> simp
  · intro other hother hne
    have hlt := Finset.mem_range.1 hother
    split
    · rw [coeff_X_pow, if_neg (by omega)]
    · rfl
  · intro hout
    exact absurd (Finset.mem_range.2 h) hout

/-- Words with one polynomial are one. -/
theorem ofWord_injective {m n : Nat} (hm : m < 2 ^ width) (hn : n < 2 ^ width)
    (h : ofWord width m = ofWord width n) : m = n := by
  refine Nat.eq_of_testBit_eq fun place => ?_
  by_cases hplace : place < width
  · have hcoeff := congrArg (coeff · (width - 1 - place)) h
    simp only [coeff_ofWord hplace] at hcoeff
    cases hbit : m.testBit place <;> cases hbit' : n.testBit place <;> simp_all
  · have hlarge : 2 ^ width ≤ 2 ^ place := Nat.pow_le_pow_right (by decide) (by omega)
    rw [Nat.testBit_lt_two_pow (by omega), Nat.testBit_lt_two_pow (by omega)]

/-- A word that is moved down by one place is its polynomial moved up. -/
theorem ofWord_shiftRight {n : Nat} (h : n < 2 ^ width) :
    X * ofWord width n =
      ofWord width (n >>> 1) + if n.testBit 0 then X ^ width else 0 := by
  have hup : X * ofWord width n =
      ∑ place ∈ Finset.range width, if n.testBit place then X ^ (width - place) else 0 := by
    rw [ofWord, Finset.mul_sum]
    refine Finset.sum_congr rfl fun place hplace => ?_
    have hlt := Finset.mem_range.1 hplace
    rw [mul_ite, mul_zero, ← pow_succ', (by omega : width - 1 - place + 1 = width - place)]
  have hall := Finset.sum_range_succ (fun place => if n.testBit place then
    (X : (ZMod 2)[X]) ^ (width - place) else 0) width
  rw [Nat.testBit_lt_two_pow h] at hall
  have hdown : ofWord width (n >>> 1) = ∑ place ∈ Finset.range width,
      if n.testBit (place + 1) then (X : (ZMod 2)[X]) ^ (width - (place + 1)) else 0 := by
    refine Finset.sum_congr rfl fun place _ => ?_
    rw [Nat.testBit_shiftRight, Nat.add_comm 1 place, Nat.sub_sub, Nat.add_comm 1 place]
  rw [hup, hdown]
  rw [Finset.sum_range_succ'] at hall
  simpa using hall.symm

/-- A short word in a wide one. -/
theorem ofWord_add {n : Nat} (h : n < 2 ^ width) (extra : Nat) :
    ofWord (width + extra) n = X ^ extra * ofWord width n := by
  have hhigh : ∑ place ∈ Finset.range extra, (if n.testBit (width + place) then
      (X : (ZMod 2)[X]) ^ (width + extra - 1 - (width + place)) else 0) = 0 := by
    refine Finset.sum_eq_zero fun place _ => if_neg ?_
    have hlarge : 2 ^ width ≤ 2 ^ (width + place) := Nat.pow_le_pow_right (by decide) (by omega)
    rw [Nat.testBit_lt_two_pow (by omega)]
    decide
  rw [ofWord, Finset.sum_range_add, hhigh, add_zero, ofWord, Finset.mul_sum]
  refine Finset.sum_congr rfl fun place hplace => ?_
  have hlt := Finset.mem_range.1 hplace
  rw [mul_ite, mul_zero, ← pow_add, (by omega : width + extra - 1 - place = extra + (width - 1 - place))]

theorem ofWord_ones : ofWord 32 (2 ^ 32 - 1) = ones := by
  rw [ones, ← Finset.sum_range_reflect, ofWord]
  refine Finset.sum_congr rfl fun place hplace => ?_
  have hlt := Finset.mem_range.1 hplace
  rw [Nat.testBit_two_pow_sub_one, if_pos (by simpa using hlt)]

theorem generator_eq : generator = X ^ 32 + ofWord 32 polynomial.toNat := by
  have hword : ofWord 32 polynomial.toNat = X ^ 26 + X ^ 23 + X ^ 22 + X ^ 16 + X ^ 12 + X ^ 11 +
      X ^ 10 + X ^ 8 + X ^ 7 + X ^ 5 + X ^ 4 + X ^ 2 + X + 1 := by
    have hplaces : {place ∈ Finset.range 32 | polynomial.toNat.testBit place = true} =
        {5, 8, 9, 15, 19, 20, 21, 23, 24, 26, 27, 29, 30, 31} := by decide +kernel
    rw [ofWord, ← Finset.sum_filter, hplaces]
    simp [add_assoc]
  rw [hword, generator]
  ring

theorem degree_generator : generator.degree = 32 := by
  rw [generator_eq, degree_add_eq_left_of_degree_lt, degree_X_pow]
  · rfl
  · rw [degree_X_pow]
    exact degree_ofWord_lt _

theorem generator_monic : generator.Monic := by
  rw [generator_eq]
  exact monic_X_pow_add (degree_ofWord_lt _)

/-- One step of the division takes the highest power away, with the generator if need be. -/
theorem ofWord_shift (r : UInt32) :
    ofWord 32 (shift r).toNat =
      X * ofWord 32 r.toNat + if r.toNat.testBit 0 then generator else 0 := by
  have hmoved : ofWord 32 (r >>> 1).toNat =
      X * ofWord 32 r.toNat + if r.toNat.testBit 0 then X ^ 32 else 0 := by
    rw [ofWord_shiftRight r.toNat_lt, add_assoc, CharTwo.add_self_eq_zero, add_zero,
      UInt32.toNat_shiftRight]
    rfl
  have hlow : r &&& 1 = 1 ↔ r.toNat.testBit 0 = true := by
    rw [← UInt32.toNat_inj, UInt32.toNat_and, Nat.testBit_zero, decide_eq_true_iff]
    exact Nat.and_one_is_mod _ ▸ .rfl
  rw [shift]
  by_cases hbit : r.toNat.testBit 0 = true
  · rw [if_pos (hlow.2 hbit), UInt32.toNat_xor, ofWord_xor, hmoved, if_pos hbit, if_pos hbit,
      generator_eq, add_assoc]
  · rw [if_neg (mt hlow.1 hbit), hmoved, if_neg hbit, if_neg hbit]

/-- Steps of the division move a register up, as far as its remainder is concerned. -/
theorem mk_repeat_shift (count : Nat) (r : UInt32) :
    AdjoinRoot.mk generator (ofWord 32 (Nat.repeat shift count r).toNat) =
      AdjoinRoot.mk generator (X ^ count * ofWord 32 r.toNat) := by
  induction count with
  | zero => rw [pow_zero, one_mul, Nat.repeat]
  | succ count ih =>
    have hstep : ∀ r : UInt32, AdjoinRoot.mk generator (ofWord 32 (shift r).toNat) =
        AdjoinRoot.mk generator X * AdjoinRoot.mk generator (ofWord 32 r.toNat) := by
      intro r
      rw [ofWord_shift, map_add, map_mul]
      split <;> simp
    rw [Nat.repeat, hstep, ih, ← map_mul, ← mul_assoc, pow_succ']

theorem ofWord_xor_byte (r : UInt32) (byte : UInt8) :
    ofWord 32 (r ^^^ byte.toUInt32).toNat = ofWord 32 r.toNat + X ^ 24 * ofWord 8 byte.toNat := by
  rw [UInt32.toNat_xor, ofWord_xor, UInt8.toNat_toUInt32, ofWord_add byte.toNat_lt 24]

/-- A byte moves the register on by eight places, and comes in behind it, 32 places up. -/
theorem mk_feed (r : UInt32) (byte : UInt8) :
    AdjoinRoot.mk generator (ofWord 32 (feed r byte).toNat) =
      AdjoinRoot.mk generator (X ^ 8 * ofWord 32 r.toNat + X ^ 32 * ofWord 8 byte.toNat) := by
  rw [feed, mk_repeat_shift, ofWord_xor_byte, mul_add, ← mul_assoc, ← pow_add]

theorem ofBytes_append_singleton (bytes : Bytes) (byte : UInt8) :
    ofBytes (bytes ++ [byte]) = X ^ 8 * ofBytes bytes + ofWord 8 byte.toNat := by
  rw [ofBytes, List.foldl_append]
  rfl

theorem mk_register (r : UInt32) (bytes : Bytes) :
    AdjoinRoot.mk generator (ofWord 32 (register r bytes).toNat) =
      AdjoinRoot.mk generator
        (X ^ 32 * ofBytes bytes + X ^ (8 * bytes.length) * ofWord 32 r.toNat) := by
  induction bytes using List.reverseRecOn with
  | nil => simp [ofBytes, register]
  | append_singleton bytes byte ih =>
    have hpower : X ^ (8 * (bytes ++ [byte]).length) = (X : (ZMod 2)[X]) ^ 8 * X ^ (8 * bytes.length) := by
      rw [← pow_add, List.length_append, List.length_singleton, Nat.mul_add, Nat.add_comm]
    have hregister : register r (bytes ++ [byte]) = feed (register r bytes) byte := by
      rw [register_append]
      rfl
    rw [hregister, mk_feed, map_add, map_mul, ih, ← map_mul, ← map_add, ofBytes_append_singleton,
      hpower]
    ring_nf

/-- A register holds the remainder of what was fed, behind what it held before. -/
theorem ofWord_register (r : UInt32) (bytes : Bytes) :
    ofWord 32 (register r bytes).toNat =
      (X ^ 32 * ofBytes bytes + X ^ (8 * bytes.length) * ofWord 32 r.toNat) %ₘ generator := by
  have hless : (ofWord 32 (register r bytes).toNat).degree < generator.degree := by
    rw [degree_generator]
    exact degree_ofWord_lt _
  rw [← (modByMonic_eq_self_iff generator_monic).2 hless]
  exact modByMonic_eq_of_dvd_sub generator_monic (AdjoinRoot.mk_eq_mk.1 (mk_register r bytes))

theorem ofWord_start : ofWord 32 start.toNat = ones := ofWord_ones

theorem ofWord_finish (r : UInt32) : ofWord 32 (finish r).toNat = ofWord 32 r.toNat + ones := by
  have hnot : finish r = r ^^^ start := by
    rw [finish, ← UInt32.xor_neg_one]
    rfl
  rw [hnot, UInt32.toNat_xor, ofWord_xor, ofWord_start]

/-- The check value that is computed is the one of the standard. -/
theorem isChecksum_iff {bytes : Bytes} {value : UInt32} :
    IsChecksum bytes value ↔ value = checksum bytes := by
  have hcomputed : ofWord 32 (checksum bytes).toNat =
      (X ^ 32 * ofBytes bytes + X ^ (8 * bytes.length) * ones) %ₘ generator + ones := by
    rw [checksum, ofWord_finish, ofWord_register, ofWord_start]
  rw [IsChecksum, ← hcomputed, ← UInt32.toNat_inj]
  exact ⟨ofWord_injective value.toNat_lt (checksum bytes).toNat_lt, congrArg (ofWord 32)⟩

end

end BlockDir.Crc32
