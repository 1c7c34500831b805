import BlockDir.Layout
import BlockDir.Proofs.Text.Utf8
import Mathlib

/-!
# Block keys

The digits of an index denote it and hold no colon, so the last colon of a block key stands between
the name and the index whatever the name is: a block key determines both (`blockKey_inj`), and both are
read off it (`blockKey_reads_back`). Other spellings of the index are read as well
(`parseBlockKey_eq_some_iff`).
-/

namespace BlockDir.Decimal

theorem toNat_digit {n : Nat} (h : n < 10) : (digit n).toNat = 48 + n := by
  rw [digit, UInt8.toNat_ofNat']
  omega

theorem value_append_singleton (bytes : Bytes) (byte : UInt8) :
    value (bytes ++ [byte]) = value bytes * 10 + (byte.toNat - 48) := by
  simp [value]

/-- The digits of a number denote it. -/
theorem value_digits (n : Nat) : value (digits n) = n := by
  fun_induction digits n with
  | case1 n h =>
    have hdigit := toNat_digit h
    simp [value, hdigit]
  | case2 n h ih =>
    have hdigit := toNat_digit (Nat.mod_lt n (by omega : 10 > 0))
    rw [value_append_singleton, ih, hdigit]
    omega

theorem digits_injective {m n : Nat} (h : digits m = digits n) : m = n := by
  rw [← value_digits m, h, value_digits]

theorem encodeChar_digitChar {n : Nat} (h : n < 10) : Utf8.encodeChar n.digitChar = [digit n] := by
  interval_cases n <;> rfl

/-- The digits of a number are those that it is shown with. -/
theorem digits_eq_encode (n : Nat) : digits n = Utf8.encode (toString n) := by
  rw [Utf8.encode, Nat.toString_eq_repr, Nat.toList_repr]
  fun_induction digits n with
  | case1 n h => rw [Nat.toDigits_of_lt_base h, List.flatMap_singleton, encodeChar_digitChar h]
  | case2 n h ih =>
    have hdigit := encodeChar_digitChar (Nat.mod_lt n (by omega : 10 > 0))
    rw [Nat.toDigits_eq_if (by omega), if_neg h, List.flatMap_append, List.flatMap_singleton, hdigit,
      ih]

/-- Every digit of a number is an ASCII digit. -/
theorem isDigit_of_mem_digits {n : Nat} {byte : UInt8} (h : byte ∈ digits n) :
    48 ≤ byte.toNat ∧ byte.toNat ≤ 57 := by
  fun_induction digits n with
  | case1 n hn =>
    rw [List.mem_singleton] at h
    have hdigit := toNat_digit hn
    rw [h, hdigit]
    omega
  | case2 n hn ih =>
    rcases List.mem_append.1 h with h | h
    · exact ih h
    · rw [List.mem_singleton] at h
      have hdigit := toNat_digit (Nat.mod_lt n (by omega : 10 > 0))
      rw [h, hdigit]
      omega

theorem digits_ne_nil (n : Nat) : digits n ≠ [] := by
  rw [digits]
  split <;> simp

theorem isDigit_iff (byte : UInt8) : isDigit byte = true ↔ 48 ≤ byte.toNat ∧ byte.toNat ≤ 57 := by
  simp [isDigit, UInt8.le_iff_toNat_le]

/-- The digits of a number of at most 64 bits are read back. -/
theorem readDigits64?_digits {n : Nat} (h : n ≤ max64) : readDigits64? (digits n) = some n := by
  have hall : (digits n).all isDigit = true := by
    rw [List.all_eq_true]
    intro byte hmem
    exact (isDigit_iff byte).2 (isDigit_of_mem_digits hmem)
  rw [readDigits64?_eq, value_digits, hall]
  simp [digits_ne_nil, h]

theorem read64?_digits {n : Nat} (h : n ≤ max64) : read64? (digits n) = some n := by
  rw [read64?]
  · exact readDigits64?_digits h
  · -- no digit is a plus sign
    intro rest heq
    have hmem : 43 ∈ digits n := by simp [heq]
    have hplus := isDigit_of_mem_digits hmem
    simp at hplus

theorem le_max64_of_readDigits64? {bytes : Bytes} {n : Nat} (h : readDigits64? bytes = some n) :
    n ≤ max64 := by
  rw [readDigits64?_eq] at h
  split at h
  · rename_i hvalid
    simp only [Bool.and_eq_true, decide_eq_true_eq] at hvalid
    rw [← Option.some.inj h]
    exact hvalid.2
  · cases h

/-- A number that is read has at most 64 bits. -/
theorem le_max64_of_read64? {bytes : Bytes} {n : Nat} (h : read64? bytes = some n) : n ≤ max64 := by
  unfold read64? at h
  split at h
  · exact le_max64_of_readDigits64? h
  · exact le_max64_of_readDigits64? h

end BlockDir.Decimal

namespace BlockDir.Layout

theorem splitLastColon_eq_none_iff {bytes : Bytes} : splitLastColon bytes = none ↔ 58 ∉ bytes := by
  induction bytes with
  | nil => simp [splitLastColon]
  | cons byte rest ih =>
    rw [splitLastColon, List.mem_cons, not_or, ← ih]
    cases splitLastColon rest with
    | some split => simp
    | none => simp [eq_comm]

/-- The split is made at the last colon: what stands behind it holds none. -/
theorem splitLastColon_eq_some_iff {bytes front back : Bytes} :
    splitLastColon bytes = some (front, back) ↔ bytes = front ++ 58 :: back ∧ 58 ∉ back := by
  constructor
  · intro h
    induction bytes generalizing front with
    | nil => cases h
    | cons byte rest ih =>
      rw [splitLastColon] at h
      cases hrest : splitLastColon rest with
      | some split =>
        simp only [hrest, Option.some.injEq, Prod.mk.injEq] at h
        obtain ⟨rfl, rfl⟩ := h
        obtain ⟨hsplit, hback⟩ := ih hrest
        exact ⟨by rw [hsplit]; rfl, hback⟩
      | none =>
        by_cases hbyte : byte = 58
        · simp only [hrest, if_pos hbyte, Option.some.injEq, Prod.mk.injEq] at h
          obtain ⟨rfl, rfl⟩ := h
          exact ⟨by rw [hbyte]; rfl, splitLastColon_eq_none_iff.1 hrest⟩
        · simp [hrest, hbyte] at h
  · rintro ⟨rfl, hback⟩
    induction front with
    | nil => rw [List.nil_append, splitLastColon, splitLastColon_eq_none_iff.2 hback]; rfl
    | cons byte front ih => rw [List.cons_append, splitLastColon, ih]

theorem colon_notMem_digits (index : Nat) : 58 ∉ Decimal.digits index := by
  intro hmem
  have h := Decimal.isDigit_of_mem_digits hmem
  simp at h

theorem splitLastColon_blockKey (name : String) (index : Nat) :
    splitLastColon (blockKey name index).tail =
      some (Utf8.encode name, Decimal.digits index) :=
  splitLastColon_eq_some_iff.2 ⟨rfl, colon_notMem_digits index⟩

/-- A block key is the key of one block of one file. -/
theorem blockKey_inj {m n : String} {i j : Nat} :
    blockKey m i = blockKey n j ↔ m = n ∧ i = j := by
  constructor
  · intro h
    have hsplit := splitLastColon_blockKey m i
    rw [h, splitLastColon_blockKey n j] at hsplit
    obtain ⟨hname, hindex⟩ := Prod.mk.inj (Option.some.inj hsplit)
    exact ⟨Utf8.encode_injective hname.symm, Decimal.digits_injective hindex.symm⟩
  · rintro ⟨rfl, rfl⟩
    rfl

/-- The keys that are read as those of a block have its name before the last colon and its index, in
whatever spelling, behind it. -/
theorem parseBlockKey_eq_some_iff {key : Bytes} {name : String} {index : Nat} :
    parseBlockKey key = some (name, index) ↔
      ∃ front back, key = 64 :: front ++ 58 :: back ∧ 58 ∉ back ∧
        Utf8.decode? front = some name ∧ Decimal.read64? back = some index := by
  constructor
  · intro h
    unfold parseBlockKey at h
    split at h
    · split at h
      · rename_i front back hsplit
        split at h
        · rename_i hname hindex
          obtain ⟨rfl, rfl⟩ := Prod.mk.inj (Option.some.inj h)
          obtain ⟨rfl, hback⟩ := splitLastColon_eq_some_iff.1 hsplit
          exact ⟨front, back, rfl, hback, hname, hindex⟩
        · cases h
      · cases h
    · cases h
  · rintro ⟨front, back, rfl, hback, hname, hindex⟩
    have hsplit : splitLastColon (front ++ 58 :: back) = some (front, back) :=
      splitLastColon_eq_some_iff.2 ⟨rfl, hback⟩
    simp [parseBlockKey, hsplit, hname, hindex]

/-- The key of a block is read as its name and its index, if the index has at most 64 bits. -/
theorem parseBlockKey_eq {index : Nat} (h : index ≤ Decimal.max64) (name : String) :
    parseBlockKey (blockKey name index) = some (name, index) :=
  parseBlockKey_eq_some_iff.2 ⟨_, _, rfl, colon_notMem_digits index, Utf8.decode?_encode name,
    Decimal.read64?_digits h⟩

theorem index_le_of_parseBlockKey {key : Bytes} {name : String} {index : Nat}
    (h : parseBlockKey key = some (name, index)) : index ≤ Decimal.max64 := by
  obtain ⟨_, _, -, -, -, hindex⟩ := parseBlockKey_eq_some_iff.1 h
  exact Decimal.le_max64_of_read64? hindex

theorem blockKey_eq_encode (name : String) (index : Nat) :
    blockKey name index = Utf8.encode s!"@{name}:{index}" := by
  have hat : Utf8.encodeChar '@' = [64] := rfl
  have hcolon : Utf8.encodeChar ':' = [58] := rfl
  rw [blockKey, Decimal.digits_eq_encode]
  simp [Utf8.encode, String.toList_append, hat, hcolon, toString]

/-- A block key is the text `@name:index`, and it is read as that name and that index: the name may be
empty or look like a block key itself, and the index may be any number of 64 bits. So no other block has
the same key. -/
theorem blockKey_reads_back (name : String) {index : Nat} (h : index ≤ Decimal.max64) :
    blockKey name index = Utf8.encode s!"@{name}:{index}" ∧
      parseBlockKey (blockKey name index) = some (name, index) ∧
        ∀ (other : String) (place : Nat),
          blockKey other place = blockKey name index → other = name ∧ place = index := by
  refine ⟨blockKey_eq_encode name index, parseBlockKey_eq h name, ?_⟩
  intro other place hsame
  exact blockKey_inj.1 hsame

/-- A name that looks like a block key, at the last index that there can be. -/
theorem blockKey_reads_back_nested :
    let name := "@größe:7"
    let index := Decimal.max64
    let key := Utf8.encode "@@größe:7:18446744073709551615"
    index ≤ Decimal.max64 ∧ blockKey name index = key ∧ parseBlockKey key = some (name, index) ∧
      ∀ (other : String) (place : Nat),
        blockKey other place = key → other = name ∧ place = index := by
  intro name index key
  have hlast : index ≤ Decimal.max64 := Nat.le_refl _
  have htext : s!"@{name}:{index}" = "@@größe:7:18446744073709551615" := by decide +kernel
  obtain ⟨hkey, hread, hsame⟩ := blockKey_reads_back name hlast
  rw [htext] at hkey
  rw [hkey] at hread hsame
  exact ⟨hlast, hkey, hread, hsame⟩

end BlockDir.Layout
