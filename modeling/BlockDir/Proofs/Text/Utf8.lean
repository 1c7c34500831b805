import BlockDir.Text.Utf8
import Mathlib

/-!
# Text survives its UTF-8 form

The first byte of a written character announces how many bytes follow and bounds the second one, so
that reading takes back exactly the character that was written (`pieces_encodeChar`). Hence lenient
reading undoes writing (`lossy_encode`), and different texts have different forms
(`encode_injective`).
-/

namespace BlockDir.Utf8

theorem follow_one {a : UInt8} (h : a.toNat < 0x80) : follow a = some (0, 0, 0) := by
  have ha : a < 0x80 := UInt8.lt_iff_toNat_lt.2 h
  rw [follow, if_pos ha]

theorem follow_two {a : UInt8} (hlow : 0xC2 ≤ a.toNat) (hhigh : a.toNat < 0xE0) :
    follow a = some (1, 0x80, 0xBF) := by
  have h80 : ¬ a < 0x80 := by rw [UInt8.lt_iff_toNat_lt]; simp; omega
  have hC2 : ¬ a < 0xC2 := by rw [UInt8.lt_iff_toNat_lt]; simp; omega
  have hE0 : a < 0xE0 := UInt8.lt_iff_toNat_lt.2 hhigh
  rw [follow, if_neg h80, if_neg hC2, if_pos hE0]

/-- The bounds that a first byte of three sets for the second admit every character from 0x800 up to
0xFFFF but the surrogates, which no character is. -/
theorem follow_three {a b : UInt8} {n : Nat} (hn : n < 0x10000) (hlong : 0x800 ≤ n)
    (hvalid : n < 0xD800 ∨ 0xDFFF < n) (ha : a.toNat = 0xE0 + n / 4096)
    (hb : b.toNat = 0x80 + n / 64 % 64) :
    ∃ low high, follow a = some (2, low, high) ∧ ¬ b < low ∧ ¬ high < b := by
  have eq_iff : ∀ m : UInt8, a = m ↔ a.toNat = m.toNat := fun m => UInt8.toNat_inj.symm
  simp only [follow, UInt8.lt_iff_toNat_lt, eq_iff, ha]
  have h : n / 4096 = 0 ∨ n / 4096 = 13 ∨ n / 4096 ≠ 0 ∧ n / 4096 ≠ 13 ∧ n / 4096 < 16 := by omega
  rcases h with h | h | ⟨h0, h13, h16⟩
  · refine ⟨0xA0, 0xBF, by simp [h], ?_, ?_⟩ <;> simp [hb] <;> omega
  · refine ⟨0x80, 0x9F, by simp [h], ?_, ?_⟩ <;> simp [hb]; omega
  · refine ⟨0x80, 0xBF, ?_, ?_, ?_⟩
    · rw [if_neg, if_neg, if_neg, if_neg, if_neg, if_pos] <;> simp <;> omega
    · simp [hb]
    · simp [hb]; omega

theorem follow_four {a b : UInt8} {n : Nat} (hn : n < 0x110000) (hlong : 0x10000 ≤ n)
    (ha : a.toNat = 0xF0 + n / 262144) (hb : b.toNat = 0x80 + n / 4096 % 64) :
    ∃ low high, follow a = some (3, low, high) ∧ ¬ b < low ∧ ¬ high < b := by
  have eq_iff : ∀ m : UInt8, a = m ↔ a.toNat = m.toNat := fun m => UInt8.toNat_inj.symm
  simp only [follow, UInt8.lt_iff_toNat_lt, eq_iff, ha]
  have h : n / 262144 = 0 ∨ n / 262144 = 4 ∨ n / 262144 ≠ 0 ∧ n / 262144 < 4 := by omega
  rcases h with h | h | ⟨h0, h4⟩
  · refine ⟨0x90, 0xBF, by simp [h], ?_, ?_⟩ <;> simp [hb] <;> omega
  · refine ⟨0x80, 0x8F, by simp [h], ?_, ?_⟩ <;> simp [hb]; omega
  · refine ⟨0x80, 0xBF, ?_, ?_, ?_⟩
    · rw [if_neg, if_neg, if_neg, if_neg, if_neg, if_neg, if_neg, if_pos] <;> simp <;> omega
    · simp [hb]
    · simp [hb]; omega

theorem continues_of_toNat {b : UInt8} {m : Nat} (hb : b.toNat = 0x80 + m % 64) : continues b = true := by
  simp only [continues, Bool.and_eq_true, decide_eq_true_eq, UInt8.le_iff_toNat_le,
    UInt8.lt_iff_toNat_lt, hb]
  simp
  omega

theorem payload_of_toNat {b : UInt8} {m : Nat} (hb : b.toNat = 0x80 + m % 64) : payload b = m % 64 := by
  rw [payload, hb]
  omega

theorem toNat_byte {n : Nat} (h : n < 256) : (UInt8.ofNat n).toNat = n := by
  rw [UInt8.toNat_ofNat']
  omega

/-- Reading takes back the character that was written. -/
theorem pieces_encodeChar (c : Char) (rest : Bytes) :
    ∃ size, pieces (encodeChar c ++ rest) = .char c size :: pieces rest := by
  have hvalid : c.toNat < 0xD800 ∨ 0xDFFF < c.toNat ∧ c.toNat < 0x110000 := c.valid
  have hc : ∀ m, m = c.toNat → Char.ofNat m = c := fun m hm => by rw [hm, Char.ofNat_toNat]
  simp only [encodeChar]
  split
  · rename_i h1
    have ha : (UInt8.ofNat c.toNat).toNat = c.toNat := toNat_byte (by omega)
    refine ⟨1, ?_⟩
    rw [List.singleton_append, pieces, follow_one (by omega)]
    simp only [hc _ ha]
  · split
    · rename_i h1 h2
      have ha : (UInt8.ofNat (0xC0 + c.toNat / 64)).toNat = 0xC0 + c.toNat / 64 := toNat_byte (by omega)
      have hb : (UInt8.ofNat (0x80 + c.toNat % 64)).toNat = 0x80 + c.toNat % 64 := toNat_byte (by omega)
      refine ⟨2, ?_⟩
      rw [List.cons_append, List.cons_append, List.nil_append, pieces,
        follow_two (by omega) (by omega)]
      simp only [UInt8.lt_iff_toNat_lt, ha, hb, payload_of_toNat hb]
      rw [if_neg (by simp; omega), if_pos trivial, hc _ (by omega)]
    · split
      · rename_i h1 h2 h3
        have ha : (UInt8.ofNat (0xE0 + c.toNat / 4096)).toNat = 0xE0 + c.toNat / 4096 :=
          toNat_byte (by omega)
        have hb : (UInt8.ofNat (0x80 + c.toNat / 64 % 64)).toNat = 0x80 + c.toNat / 64 % 64 :=
          toNat_byte (by omega)
        have hd : (UInt8.ofNat (0x80 + c.toNat % 64)).toNat = 0x80 + c.toNat % 64 := toNat_byte (by omega)
        obtain ⟨low, high, hfollow, hlow, hhigh⟩ := follow_three h3 (by omega) (by omega) ha hb
        refine ⟨3, ?_⟩
        rw [List.cons_append, List.cons_append, List.cons_append, List.nil_append, pieces, hfollow]
        simp only [hlow, hhigh, continues_of_toNat hd, ha, payload_of_toNat hb, payload_of_toNat hd]
        rw [if_neg (by simp), if_neg (by simp), if_neg (by simp), if_pos trivial, hc _ (by omega)]
      · rename_i h1 h2 h3
        have ha : (UInt8.ofNat (0xF0 + c.toNat / 262144)).toNat = 0xF0 + c.toNat / 262144 :=
          toNat_byte (by omega)
        have hb : (UInt8.ofNat (0x80 + c.toNat / 4096 % 64)).toNat = 0x80 + c.toNat / 4096 % 64 :=
          toNat_byte (by omega)
        have hd : (UInt8.ofNat (0x80 + c.toNat / 64 % 64)).toNat = 0x80 + c.toNat / 64 % 64 :=
          toNat_byte (by omega)
        have he : (UInt8.ofNat (0x80 + c.toNat % 64)).toNat = 0x80 + c.toNat % 64 := toNat_byte (by omega)
        obtain ⟨low, high, hfollow, hlow, hhigh⟩ := follow_four (by omega) (by omega) ha hb
        refine ⟨4, ?_⟩
        rw [List.cons_append, List.cons_append, List.cons_append, List.cons_append, List.nil_append,
          pieces, hfollow]
        simp only [hlow, hhigh, continues_of_toNat hd, continues_of_toNat he, ha,
          payload_of_toNat hb, payload_of_toNat hd, payload_of_toNat he]
        rw [if_neg (by simp), if_neg (by simp), if_neg (by simp), if_neg (by simp), if_neg (by simp),
          hc _ (by omega)]

theorem lossy_encodeChar_append (c : Char) (rest : Bytes) :
    lossy (encodeChar c ++ rest) = String.ofList (c :: (lossy rest).toList) := by
  obtain ⟨size, hsize⟩ := pieces_encodeChar c rest
  simp [lossy, hsize]

/-- Lenient reading gives back a text that was written. -/
theorem lossy_encode (text : String) : lossy (encode text) = text := by
  have hchars : ∀ chars : List Char, lossy (chars.flatMap encodeChar) = String.ofList chars := by
    intro chars
    induction chars with
    | nil => rw [List.flatMap_nil, lossy, pieces, List.map_nil]
    | cons c rest ih => rw [List.flatMap_cons, lossy_encodeChar_append, ih, String.toList_ofList]
  rw [encode, hchars, String.ofList_toList]

theorem encode_injective {a b : String} (h : encode a = encode b) : a = b := by
  rw [← lossy_encode a, h, lossy_encode]

theorem charsFrom_pieces_flatMap (index : Nat) (found chars : List Char) :
    charsFrom index found (pieces (chars.flatMap encodeChar)) = .ok (found.reverse ++ chars) := by
  induction chars generalizing index found with
  | nil => simp [pieces, charsFrom]
  | cons c rest ih =>
    obtain ⟨size, hsize⟩ := pieces_encodeChar c (rest.flatMap encodeChar)
    rw [List.flatMap_cons, hsize, charsFrom, ih]
    simp

/-- Strict reading gives back a text that was written. -/
theorem decode_encode (text : String) : decode (encode text) = .ok text := by
  simp [decode, encode, charsFrom_pieces_flatMap, Except.map]

theorem decode?_encode (text : String) : decode? (encode text) = some text := by
  rw [decode?, decode_encode]
  rfl

end BlockDir.Utf8
