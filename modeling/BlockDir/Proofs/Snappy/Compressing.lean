import BlockDir.Proofs.Snappy.Format
import BlockDir.Snappy.Compressor
import Std.Data.HashMap.Lemmas

/-!
# What the compressor makes

The compressor's dictionary remembers places of the data together with what stands there (`Faithful`),
so a copy is emitted only where it reproduces the bytes ahead (`findCopy?_spec`). Every row of elements
that the search finds therefore makes up the data (`builds_elements`), and what comes out is a stream of
it (`compresses_encode`).
-/

namespace BlockDir.Snappy

theorem header_encode {n : Nat} (h : n ≤ maxLength) : Header (Varint.encode n) n where
  closes := closes_varint n
  short := by
    refine length_varint_le (by decide) (Nat.lt_of_le_of_lt h ?_)
    decide
  value := Varint.value_encode n
  bounded := h

theorem lengthBytes_of_le {n : Nat} (hlow : 60 ≤ n) (hhigh : n < 4294967296) :
    0 < Element.lengthBytes n ∧ Element.lengthBytes n ≤ 4 ∧ n < 256 ^ Element.lengthBytes n := by
  rw [Element.lengthBytes, if_neg (by omega)]
  split
  · omega
  · split
    · omega
    · split <;> omega

/-- A literal is written with its length in the tag, or after it if the tag cannot hold it. -/
theorem picks_write_literal {bytes : Bytes} (hne : bytes ≠ [])
    (hlength : bytes.length ≤ 4294967296) :
    (Element.literal bytes).Picks (Element.literal bytes).write := by
  have hpos : 0 < bytes.length := List.length_pos_iff.2 hne
  rcases Nat.lt_or_ge (bytes.length - 1) 60 with hshort | hlong
  · have htag : (UInt8.ofNat ((bytes.length - 1) * 4)).toNat = 4 * (bytes.length - 1) := by
      rw [UInt8.toNat_ofNat']
      omega
    have hwrite : (Element.literal bytes).write = UInt8.ofNat ((bytes.length - 1) * 4) :: bytes := by
      rw [Element.write, Element.writeLength, Element.lengthBytes, if_pos hshort, if_pos rfl]
      rfl
    rw [hwrite]
    refine ⟨.short hne (by omega) htag, ?_⟩
    rintro _ ⟨⟩ -
    rfl
  · obtain ⟨hwidth, hfour, hbound⟩ := lengthBytes_of_le hlong (by omega)
    have htag : (UInt8.ofNat ((59 + Element.lengthBytes (bytes.length - 1)) * 4)).toNat =
        4 * (59 + (Bytes.littleEndian (Element.lengthBytes (bytes.length - 1))
          (bytes.length - 1)).length) := by
      rw [UInt8.toNat_ofNat', Bytes.length_littleEndian]
      omega
    have hcounted : bytes.length = Bytes.ofLittleEndian (Bytes.littleEndian
        (Element.lengthBytes (bytes.length - 1)) (bytes.length - 1)) + 1 := by
      rw [Bytes.ofLittleEndian_littleEndian, Nat.mod_eq_of_lt hbound]
      omega
    rw [Element.write, Element.writeLength, if_neg (by omega), List.cons_append]
    refine ⟨.long ?_ ?_ htag hcounted, ?_⟩
    · rw [← List.length_pos_iff, Bytes.length_littleEndian]
      exact hwidth
    · rw [Bytes.length_littleEndian]
      exact hfour
    · rintro _ ⟨⟩ hfew
      omega

/-- A copy is written with two offset bytes. -/
theorem picks_write_copy {offset length : Nat} (hnear : offset < 65536) (hpos : 0 < length)
    (hlongest : length ≤ longestCopy) :
    (Element.copy offset length).Picks (Element.copy offset length).write := by
  unfold longestCopy at hlongest
  have htag : (UInt8.ofNat ((length - 1) * 4 + 2)).toNat = 4 * (length - 1) + 2 := by
    rw [UInt8.toNat_ofNat']
    omega
  have hoffset : Bytes.ofLittleEndian (Bytes.littleEndian 2 offset) = offset := by
    rw [Bytes.ofLittleEndian_littleEndian]
    exact Nat.mod_eq_of_lt hnear
  have hform : (Element.copy (Bytes.ofLittleEndian (Bytes.littleEndian 2 offset)) length).Form
      (Element.copy offset length).write := .middle hpos htag (Bytes.length_littleEndian 2 offset)
  rw [hoffset] at hform
  exact ⟨hform, nofun⟩

theorem Row.snoc {allowed : Element → Bytes → Prop} {out row data form added : Bytes} {e : Element}
    (h : Row allowed out row data) (stored : allowed e form) (adds : e.Adds data added) :
    Row allowed out (row ++ form) (data ++ added) := by
  induction h with
  | nil =>
    have hlast := Row.cons stored adds .nil
    rwa [List.append_nil] at hlast
  | cons stored' adds' _ ih =>
    rw [List.append_assoc]
    exact .cons stored' adds' (ih adds)

/-- The elements `found`, last one first, are written as a row that makes up `out`. -/
def Builds (found : List Element) (out : Bytes) : Prop :=
  Row Element.Picks [] (found.reverse.flatMap Element.write) out

theorem Builds.cons {found : List Element} {out added : Bytes} {e : Element} (h : Builds found out)
    (stored : e.Picks e.write) (adds : e.Adds out added) : Builds (e :: found) (out ++ added) := by
  rw [Builds, List.reverse_cons, List.flatMap_append, List.flatMap_singleton]
  exact Row.snoc h stored adds

/-- Each place in the dictionary lies before `position` and comes with the data from there on. -/
def Faithful (data : Bytes) (position : Nat) (seen : Dictionary) : Prop :=
  ∀ (key : UInt32) (earlier : Nat) (ahead : Bytes), seen[key]? = some (earlier, ahead) →
    earlier < position ∧ ahead = data.drop earlier

theorem Faithful.remember {data : Bytes} {position next : Nat} {seen : Dictionary}
    (h : Faithful data position seen) (hnext : position < next) :
    Faithful data next (remember seen position (data.drop position)) := by
  intro key earlier ahead hfound
  unfold Snappy.remember at hfound
  split at hfound
  · rw [Std.HashMap.getElem?_insert] at hfound
    split at hfound
    · simp only [Option.some.injEq, Prod.mk.injEq] at hfound
      obtain ⟨rfl, rfl⟩ := hfound
      exact ⟨hnext, rfl⟩
    · obtain ⟨hlt, hahead⟩ := h key earlier ahead hfound
      exact ⟨by omega, hahead⟩
  · obtain ⟨hlt, hahead⟩ := h key earlier ahead hfound
    exact ⟨by omega, hahead⟩

/-- Two byte strings have as many first bytes in common as their agreement says. -/
theorem take_agreement (limit : Nat) (as bs : Bytes) :
    agreement limit as bs ≤ limit ∧ agreement limit as bs ≤ bs.length ∧
      as.take (agreement limit as bs) = bs.take (agreement limit as bs) := by
  fun_induction agreement limit as bs with
  | case1 limit b as bs ih =>
    obtain ⟨hlimit, hlength, htake⟩ := ih
    refine ⟨by omega, by simp; omega, ?_⟩
    rw [List.take_succ_cons, List.take_succ_cons, htake]
  | case2 => simp
  | case3 => simp

/-- Where the data ahead repeats that at an earlier place, a copy adds it. -/
theorem adds_copy {data : Bytes} {earlier length position : Nat} (hearlier : earlier < position)
    (hroom : position + length ≤ data.length)
    (hsame : (data.drop earlier).take length = (data.drop position).take length) :
    (Element.copy (position - earlier) length).Adds (data.take position)
      ((data.drop position).take length) := by
  have hfront : (data.take position).length = position := by
    rw [List.length_take]
    omega
  refine ⟨by omega, by omega, by rw [List.length_take, List.length_drop]; omega,
    fun index hindex => ?_⟩
  have hplace : position + index - (position - earlier) = earlier + index := by omega
  have hbyte := congrArg (·[index]?) hsame
  simp only [List.getElem?_take_of_lt hindex, List.getElem?_drop] at hbyte
  rw [hfront, ← List.take_add, hplace, List.getElem?_take_of_lt (by omega),
    List.getElem?_take_of_lt (by omega), hbyte]

/-- A copy that was found reproduces the bytes ahead. -/
theorem findCopy?_spec {data rest : Bytes} {position offset length : Nat} {seen : Dictionary}
    (hseen : Faithful data position seen) (hrest : rest = data.drop position)
    (hposition : position ≤ data.length) (h : findCopy? seen position rest = some (offset, length)) :
    0 < length ∧ position + length ≤ data.length ∧
      (Element.copy offset length).Picks (Element.copy offset length).write ∧
      (Element.copy offset length).Adds (data.take position) ((data.drop position).take length) := by
  unfold findCopy? at h
  split at h
  · simp at h
  · rename_i earlier ahead hfound
    obtain ⟨key, -, hkey⟩ := Option.bind_eq_some_iff.1 hfound
    obtain ⟨hearlier, hahead⟩ := hseen key earlier ahead hkey
    obtain ⟨hlimit, hlength, htake⟩ := take_agreement longestCopy ahead rest
    dsimp only at h
    split at h
    · rename_i hcond
      simp only [Bool.and_eq_true, decide_eq_true_eq] at hcond
      obtain ⟨⟨hfour, hpos⟩, hfar⟩ := hcond
      simp only [Option.some.injEq, Prod.mk.injEq] at h
      obtain ⟨rfl, rfl⟩ := h
      have hroom : position + agreement longestCopy ahead rest ≤ data.length := by
        have hdrop : rest.length = data.length - position := by rw [hrest, List.length_drop]
        omega
      unfold furthest at hfar
      refine ⟨by omega, hroom, picks_write_copy (by omega) (by omega) hlimit,
        adds_copy hearlier hroom ?_⟩
      rw [← hahead, htake, hrest]
    · simp at h

theorem Builds.flush {found : List Element} {out pending : Bytes} (h : Builds found out)
    (hlength : pending.length ≤ 4294967296) :
    Builds (Snappy.flush pending found) (out ++ pending.reverse) := by
  unfold Snappy.flush
  split
  · rename_i hempty
    rw [List.isEmpty_iff] at hempty
    simpa [hempty] using h
  · rename_i hfull
    rw [List.isEmpty_iff] at hfull
    exact h.cons (picks_write_literal (by simpa using hfull) (by simpa using hlength)) rfl

/-- The search goes on from elements and pending bytes that make up the data so far, and ends with
elements that make up all of it. -/
theorem builds_search {data : Bytes} (hdata : data.length ≤ 4294967296) (seen : Dictionary)
    (position : Nat) (pending : Bytes) (found : List Element) (rest out : Bytes)
    (hseen : Faithful data position seen) (hbuilt : Builds found out)
    (hso : out ++ pending.reverse = data.take position) (hrest : rest = data.drop position)
    (hposition : position ≤ data.length) :
    Builds (search seen position pending found rest) data := by
  have hpending : pending.length ≤ 4294967296 := by
    have hlength := congrArg List.length hso
    simp only [List.length_append, List.length_reverse, List.length_take] at hlength
    omega
  -- a step that finds a copy moves `out` on; one that finds none only makes `pending` longer
  fun_induction search seen position pending found rest generalizing out with
  | case1 seen position pending found =>
    have hall : data.take position = data := by
      have hnil := congrArg List.length hrest
      simp only [List.length_nil, List.length_drop] at hnil
      exact List.take_of_length_le (by omega)
    have hflush := hbuilt.flush hpending
    rwa [hso, hall] at hflush
  | case2 seen position pending found byte tail offset length hfind ih =>
    obtain ⟨hpos, hroom, hpicks, hadds⟩ := findCopy?_spec hseen hrest hposition hfind
    have hlength : length - 1 + 1 = length := by omega
    have hflush := hbuilt.flush hpending
    rw [hso] at hflush
    have hcopy := hflush.cons hpicks hadds
    rw [← List.take_add] at hcopy
    rw [hlength] at ih ⊢
    refine ih (data.take (position + length)) ?_ hcopy (by simp) ?_ hroom (by simp)
    · rw [hrest]
      exact hseen.remember (by omega)
    · have htail : tail = data.drop (position + 1) := by
        rw [← List.drop_drop, ← hrest, List.drop_one, List.tail_cons]
      rw [htail, List.drop_drop]
      congr 1
      omega
  | case3 seen position pending found byte tail hfind ih =>
    have hlt : position < data.length := by
      have hlength := congrArg List.length hrest
      simp only [List.length_cons, List.length_drop] at hlength
      omega
    have hbyte : data[position]? = some byte := by
      have hhead := congrArg List.head? hrest
      rw [List.head?_drop] at hhead
      exact hhead.symm
    have hgrown : out ++ (byte :: pending).reverse = data.take (position + 1) := by
      rw [List.reverse_cons, ← List.append_assoc, hso, List.take_add_one, hbyte]
      rfl
    refine ih out ?_ hbuilt hgrown ?_ hlt ?_
    · rw [hrest]
      exact hseen.remember (by omega)
    · rw [← List.drop_drop, ← hrest, List.drop_one, List.tail_cons]
    · have hlength := congrArg List.length hgrown
      simp only [List.length_append, List.length_reverse, List.length_take] at hlength
      omega

theorem builds_elements {data : Bytes} (hdata : data.length ≤ maxLength) :
    Builds (elements data).reverse data := by
  unfold maxLength at hdata
  unfold elements
  split
  · rename_i hempty
    rw [List.isEmpty_iff.1 hempty]
    exact .nil
  · rename_i hfull
    split
    · have hnil : Builds [] [] := .nil
      exact hnil.cons (picks_write_literal (by simpa using hfull) (by omega)) rfl
    · rw [List.reverse_reverse]
      refine builds_search (by omega) ∅ 0 [] [] data [] ?_ .nil rfl rfl (Nat.zero_le _)
      intro key earlier ahead hfound
      simp at hfound

/-- The compressor makes streams. -/
theorem compresses_encode : Compresses encode := by
  intro data hlength
  have hdata : data.length ≤ maxLength := Nat.le_trans hlength (by decide)
  have hbuilt := builds_elements hdata
  rw [Builds, List.reverse_reverse] at hbuilt
  exact ⟨_, _, rfl, header_encode hdata, hbuilt⟩

end BlockDir.Snappy
