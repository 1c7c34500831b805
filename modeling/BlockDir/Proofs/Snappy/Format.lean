import BlockDir.Proofs.Snappy.Reading

/-!
# The raw stream format

What a stream stands for by the rules of the format, told without a reader. A header announces the
length of the data in at most five groups, low group first. After it come elements, each in one of
five stored forms (`Element.Form`), and each adds bytes to the output so far (`Element.Adds`): a
literal its own, a copy such that every byte equals the one `offset` places before it, also where
that is a byte of the same copy. The format leaves a writer much freedom, and the reader a little
more: it lets a literal of any length have its length after the tag, which the format keeps for those
that the tag cannot hold (`Element.Picks`). What a writer may make of data (`Written`) the reader
takes as that data (`decode_of_written`); what it takes at all is told exactly by `decode_eq_ok_iff`.
-/

namespace BlockDir.Snappy

/-- A row of groups that ends with its first closed group. -/
inductive Closes : Bytes → Prop where
  | last {byte : UInt8} (closed : Varint.isOpen byte = false) : Closes [byte]
  | more {byte : UInt8} {rest : Bytes} (opened : Varint.isOpen byte = true) (next : Closes rest) :
      Closes (byte :: rest)

/-- A header that announces `length` bytes. -/
structure Header (header : Bytes) (length : Nat) : Prop where
  closes : Closes header
  short : header.length ≤ 5
  value : Varint.value header = length
  bounded : length ≤ maxLength

/-- The stored forms of an element. The two low bits of the tag tell literals from copies, and how
many bytes the offset of a copy takes. -/
inductive Element.Form : Element → Bytes → Prop where
  /-- A literal of at most 60 bytes has its length in the tag. -/
  | short {tag : UInt8} {bytes : Bytes} (some : bytes ≠ []) (few : bytes.length ≤ 60)
      (tagged : tag.toNat = 4 * (bytes.length - 1)) : Form (.literal bytes) (tag :: bytes)
  /-- A literal of any length has it in one to four bytes after the tag. -/
  | long {tag : UInt8} {digits bytes : Bytes} (some : digits ≠ []) (few : digits.length ≤ 4)
      (tagged : tag.toNat = 4 * (59 + digits.length))
      (counted : bytes.length = Bytes.ofLittleEndian digits + 1) :
      Form (.literal bytes) (tag :: (digits ++ bytes))
  /-- A copy of 4 to 11 bytes with an offset of eleven bits, the three high ones in the tag. -/
  | near {tag low : UInt8} {offset length : Nat} (least : 4 ≤ length) (most : length ≤ 11)
      (tagged : tag.toNat = 32 * (offset / 256) + 4 * (length - 4) + 1)
      (placed : low.toNat = offset % 256) : Form (.copy offset length) [tag, low]
  /-- A copy with an offset of two bytes. -/
  | middle {tag : UInt8} {digits : Bytes} {length : Nat} (least : 1 ≤ length)
      (tagged : tag.toNat = 4 * (length - 1) + 2) (two : digits.length = 2) :
      Form (.copy (Bytes.ofLittleEndian digits) length) (tag :: digits)
  /-- A copy with an offset of four bytes. -/
  | far {tag : UInt8} {digits : Bytes} {length : Nat} (least : 1 ≤ length)
      (tagged : tag.toNat = 4 * (length - 1) + 3) (four : digits.length = 4) :
      Form (.copy (Bytes.ofLittleEndian digits) length) (tag :: digits)

/-- Whether an element reaches back into what is there, if it reaches back. -/
def Element.Reaches (produced : Nat) : Element → Prop
  | literal _ => True
  | copy offset _ => 0 < offset ∧ offset ≤ produced

/-- What an element adds to the output so far. -/
def Element.Adds (out added : Bytes) : Element → Prop
  | literal bytes => added = bytes
  | copy offset length => 0 < offset ∧ offset ≤ out.length ∧ added.length = length ∧
      ∀ index < length,
        (out ++ added)[out.length + index]? = (out ++ added)[out.length + index - offset]?

/-- A row of elements in allowed forms that leads from the output `out` to `data`. -/
inductive Row (allowed : Element → Bytes → Prop) : (out row data : Bytes) → Prop where
  | nil {out : Bytes} : Row allowed out [] out
  | cons {out added form rest data : Bytes} {element : Element} (stored : allowed element form)
      (adds : element.Adds out added) (next : Row allowed (out ++ added) rest data) :
      Row allowed out (form ++ rest) data

/-- Whether `stream` stands for `data`, by what the reader makes of it. -/
def StreamOf (stream data : Bytes) : Prop :=
  ∃ header row, stream = header ++ row ∧ Header header data.length ∧
    Row Element.Form [] row data

/-- The stored forms that a writer picks from: a literal of at most 60 bytes has its length in the
tag. -/
def Element.Picks (e : Element) (form : Bytes) : Prop :=
  e.Form form ∧ ∀ bytes, e = .literal bytes → bytes.length ≤ 60 → form.length = bytes.length + 1

/-- Whether a writer may make `stream` of `data`. -/
def Written (stream data : Bytes) : Prop :=
  ∃ header row, stream = header ++ row ∧ Header header data.length ∧
    Row Element.Picks [] row data

/-- A compressor makes such a stream of all data that is not too long. -/
def Compresses (compress : Bytes → Bytes) : Prop :=
  ∀ data : Bytes, data.length ≤ longest → Written (compress data) data

/-- A row may be looked at as one in which more forms are allowed. -/
theorem Row.mono {allowed allowed' : Element → Bytes → Prop} {out row data : Bytes}
    (h : Row allowed out row data) (hmore : ∀ e form, allowed e form → allowed' e form) :
    Row allowed' out row data := by
  induction h with
  | nil => exact .nil
  | cons stored adds _ ih => exact .cons (hmore _ _ stored) adds ih

theorem Written.streamOf {stream data : Bytes} (h : Written stream data) : StreamOf stream data := by
  obtain ⟨header, row, hstream, hheader, hrow⟩ := h
  exact ⟨header, row, hstream, hheader, hrow.mono fun _ _ hpicks => hpicks.1⟩

theorem Closes.ne_nil {row : Bytes} (h : Closes row) : row ≠ [] := by
  cases h <;> simp

/-- A number is written as a row of groups. -/
theorem closes_varint (n : Nat) : Closes (Varint.encode n) := by
  fun_induction Varint.encode n with
  | case1 n hsmall => exact .last (Varint.group_last hsmall).1
  | case2 n hlarge ih => exact .more Varint.group_open.1 ih

/-- Each group takes seven bits of the number. -/
theorem length_varint_le {limit n : Nat} (hlimit : 0 < limit) (h : n < 128 ^ limit) :
    (Varint.encode n).length ≤ limit := by
  induction limit generalizing n with
  | zero => omega
  | succ limit ih =>
    rw [Varint.encode]
    split
    · exact Nat.succ_pos limit
    · have hhigh : n / 128 < 128 ^ limit := by
        rw [Nat.div_lt_iff_lt_mul (by omega), ← Nat.pow_succ]
        exact h
      have hpos : 0 < limit := by
        by_contra hzero
        obtain rfl : limit = 0 := by omega
        omega
      exact Nat.succ_le_succ (ih hpos hhigh)

theorem Closes.readVarint {header : Bytes} (h : Closes header) (rest : Bytes) {limit : Nat}
    (hshort : header.length ≤ limit) :
    readVarint limit (header ++ rest) = some (Varint.value header, rest) := by
  induction h generalizing limit with
  | @last byte closed =>
    cases limit with
    | zero => simp at hshort
    | succ limit => simp [Snappy.readVarint, Varint.value, closed]
  | @more byte header opened next ih =>
    cases limit with
    | zero => simp at hshort
    | succ limit =>
      have hread := ih (Nat.le_of_succ_le_succ hshort)
      simp [Snappy.readVarint, Varint.value, opened, hread]

theorem closes_of_readVarint {limit n : Nat} {bytes rest : Bytes}
    (h : readVarint limit bytes = some (n, rest)) :
    ∃ header, bytes = header ++ rest ∧ Closes header ∧ header.length ≤ limit ∧
      Varint.value header = n := by
  induction limit generalizing bytes n with
  | zero => simp [readVarint] at h
  | succ limit ih =>
    cases bytes with
    | nil => simp [readVarint] at h
    | cons byte tail =>
      rw [readVarint] at h
      by_cases hopen : Varint.isOpen byte = true
      · rw [if_pos hopen] at h
        obtain ⟨⟨high, left⟩, hread, hpair⟩ := Option.map_eq_some_iff.1 h
        obtain ⟨rfl, rfl⟩ := Prod.mk.inj hpair
        obtain ⟨header, rfl, hcloses, hshort, rfl⟩ := ih hread
        exact ⟨byte :: header, rfl, .more hopen hcloses, Nat.succ_le_succ hshort, rfl⟩
      · rw [if_neg hopen] at h
        obtain ⟨rfl, rfl⟩ := Prod.mk.inj (Option.some.inj h)
        exact ⟨[byte], rfl, .last (by simpa using hopen), by simp, by simp [Varint.value]⟩

theorem readHeader_eq_ok_iff {stream rest : Bytes} {length : Nat} :
    readHeader stream = .ok (length, rest) ↔
      ∃ header, stream = header ++ rest ∧ Header header length := by
  rw [readHeader]
  by_cases hempty : stream.isEmpty
  · rw [if_pos hempty]
    simp only [reduceCtorEq, false_iff, not_exists]
    rintro header ⟨rfl, hheader⟩
    exact hheader.closes.ne_nil (List.append_eq_nil_iff.1 (List.isEmpty_iff.1 hempty)).1
  · rw [if_neg hempty]
    constructor
    · intro h
      cases hread : readVarint 5 stream with
      | none => simp [hread] at h
      | some found =>
        obtain ⟨n, left⟩ := found
        simp only [hread] at h
        split at h
        · cases h
        · rename_i hbound
          obtain ⟨rfl, rfl⟩ := Prod.mk.inj (Except.ok.inj h)
          obtain ⟨header, rfl, hcloses, hshort, hvalue⟩ := closes_of_readVarint hread
          exact ⟨header, rfl, hcloses, hshort, hvalue, Nat.not_lt.1 hbound⟩
    · rintro ⟨header, rfl, hcloses, hshort, hvalue, hbound⟩
      rw [hcloses.readVarint rest hshort, hvalue]
      exact if_neg (Nat.not_lt.2 hbound)

theorem readCopy_eq_ok_iff {produced total length width : Nat} {high : UInt8} {bytes rest : Bytes}
    {e : Element} :
    readCopy produced total length width high bytes = .ok (e, rest) ↔ ∃ front,
      bytes = front ++ rest ∧ front.length = width ∧
        e = .copy (Bytes.ofLittleEndian (front ++ [high])) length ∧
        e.Reaches produced ∧ length ≤ total - produced := by
  constructor
  · intro h
    rw [readCopy] at h
    split at h
    · cases h
    · rename_i front left hsplit
      obtain ⟨hlength, hbytes⟩ := length_of_split? hsplit
      dsimp only at h
      split at h
      · cases h
      · rename_i hoffset
        split at h
        · cases h
        · rename_i hroom
          obtain ⟨rfl, rfl⟩ := Prod.mk.inj (Except.ok.inj h)
          refine ⟨front, hbytes, hlength, rfl, ?_, Nat.not_lt.1 hroom⟩
          simp only [Bool.or_eq_true, decide_eq_true_eq, not_or] at hoffset
          exact ⟨Nat.pos_of_ne_zero hoffset.1, Nat.not_lt.1 hoffset.2⟩
  · rintro ⟨front, rfl, rfl, rfl, ⟨hpos, hback⟩, hroom⟩
    have hoffset : ¬ (Bytes.ofLittleEndian (front ++ [high]) = 0 ∨
        produced < Bytes.ofLittleEndian (front ++ [high])) := by omega
    rw [readCopy, split?_append]
    simp [hoffset, Nat.not_lt.2 hroom]

/-- How many bytes an element adds. -/
def Element.size : Element → Nat
  | literal bytes => bytes.length
  | copy _ length => length

/-- The offset of a near copy has its low byte after the tag, and its high bits in it. -/
theorem ofLittleEndian_near (tag low : UInt8) :
    Bytes.ofLittleEndian ([low] ++ [UInt8.ofNat (tag.toNat / 4 / 8)]) =
      low.toNat + 256 * (tag.toNat / 4 / 8) := by
  have hbyte := tag.toNat_lt
  rw [List.singleton_append, Bytes.ofLittleEndian, Bytes.ofLittleEndian, Bytes.ofLittleEndian,
    UInt8.toNat_ofNat']
  omega

section

variable {produced total : Nat} {tag : UInt8} {bytes tail rest : Bytes} {e : Element}

theorem Element.form_of_read (h : Element.read produced total tag bytes = .ok (e, rest)) :
    ∃ tail, bytes = tail ++ rest ∧ e.Form (tag :: tail) ∧ e.Reaches produced ∧
      e.size ≤ total - produced := by
  have hbyte := tag.toNat_lt
  simp only [Element.read] at h
  split at h
  · rename_i hsort
    split at h
    · rename_i hshort
      obtain ⟨front, rfl, rfl, hlength, hroom⟩ := readLiteral_eq_ok_iff.1 h
      refine ⟨front, rfl, .short ?_ (by omega) (by omega), trivial, by rwa [size, hlength]⟩
      exact List.length_pos_iff.1 (by omega)
    · rename_i hlong
      split at h
      · cases h
      · rename_i digits left hsplit
        obtain ⟨hwidth, rfl⟩ := length_of_split? hsplit
        obtain ⟨front, rfl, rfl, hlength, hroom⟩ := readLiteral_eq_ok_iff.1 h
        refine ⟨digits ++ front, by simp, .long ?_ (by omega) (by omega) hlength, trivial,
          by rwa [size, hlength]⟩
        exact List.length_pos_iff.1 (by omega)
  · rename_i hsort
    obtain ⟨front, rfl, hwidth, rfl, hreaches, hroom⟩ := readCopy_eq_ok_iff.1 h
    obtain ⟨low, rfl⟩ := List.length_eq_one_iff.1 hwidth
    have hlow := low.toNat_lt
    rw [ofLittleEndian_near] at hreaches ⊢
    exact ⟨[low], rfl, .near (by omega) (by omega) (by omega) (by omega), hreaches, hroom⟩
  · rename_i hsort
    obtain ⟨front, rfl, hwidth, rfl, hreaches, hroom⟩ := readCopy_eq_ok_iff.1 h
    rw [ofLittleEndian_append_zero] at hreaches ⊢
    exact ⟨front, rfl, .middle (by omega) (by omega) hwidth, hreaches, hroom⟩
  · rename_i hliteral hnear hmiddle
    have hsort : tag.toNat % 4 ≠ 0 ∧ tag.toNat % 4 ≠ 1 ∧ tag.toNat % 4 ≠ 2 :=
      ⟨hliteral, hnear, hmiddle⟩
    obtain ⟨front, rfl, hwidth, rfl, hreaches, hroom⟩ := readCopy_eq_ok_iff.1 h
    rw [ofLittleEndian_append_zero] at hreaches ⊢
    exact ⟨front, rfl, .far (by omega) (by omega) hwidth, hreaches, hroom⟩

theorem Element.Form.read (hform : e.Form (tag :: tail)) (hreaches : e.Reaches produced)
    (hroom : e.size ≤ total - produced) :
    Element.read produced total tag (tail ++ rest) = .ok (e, rest) := by
  have hbyte := tag.toNat_lt
  cases hform with
  | short hsome hfew htag =>
    have hpos := List.length_pos_iff.2 hsome
    have hsort : tag.toNat % 4 = 0 := by omega
    have hshort : tag.toNat / 4 < 60 := by omega
    simp only [Element.read, hsort, if_pos hshort]
    exact readLiteral_eq_ok_iff.2 ⟨tail, rfl, rfl, by omega, by rw [size] at hroom; omega⟩
  | @long _ digits front hsome hfew htag hcounted =>
    have hpos := List.length_pos_iff.2 hsome
    have hsort : tag.toNat % 4 = 0 := by omega
    have hlong : ¬ tag.toNat / 4 < 60 := by omega
    have hwidth : tag.toNat / 4 - 59 = digits.length := by omega
    simp only [Element.read, hsort, if_neg hlong, hwidth, List.append_assoc, split?_append]
    exact readLiteral_eq_ok_iff.2 ⟨front, rfl, rfl, hcounted, by rw [size] at hroom; omega⟩
  | @near _ low offset length hleast hmost htag hplaced =>
    have hsort : tag.toNat % 4 = 1 := by omega
    have hlength : tag.toNat / 4 % 8 + 4 = length := by omega
    have hoffset : low.toNat + 256 * (tag.toNat / 4 / 8) = offset := by omega
    simp only [Element.read, hsort, hlength]
    exact readCopy_eq_ok_iff.2
      ⟨[low], rfl, rfl, by rw [ofLittleEndian_near, hoffset], hreaches, hroom⟩
  | @middle _ _ length hleast htag htwo =>
    have hsort : tag.toNat % 4 = 2 := by omega
    have hlength : tag.toNat / 4 + 1 = length := by omega
    simp only [Element.read, hsort, hlength]
    exact readCopy_eq_ok_iff.2
      ⟨tail, rfl, htwo, by rw [ofLittleEndian_append_zero], hreaches, hroom⟩
  | @far _ _ length hleast htag hfour =>
    have hsort : tag.toNat % 4 = 3 := by omega
    have hlength : tag.toNat / 4 + 1 = length := by omega
    simp only [Element.read, hsort, hlength]
    exact readCopy_eq_ok_iff.2
      ⟨tail, rfl, hfour, by rw [ofLittleEndian_append_zero], hreaches, hroom⟩

end

/-- What an element adds is what the reader appends for it. -/
theorem Element.adds_iff {e : Element} {out added : Bytes} :
    e.Adds out added ↔
      e.Reaches out.length ∧ e.replay out.toArray = (out ++ added).toArray := by
  cases e with
  | literal bytes =>
    rw [Adds, Reaches, replay]
    simp [eq_comm]
  | copy offset length =>
    constructor
    · rintro ⟨hpos, hback, rfl, hsame⟩
      refine ⟨⟨hpos, hback⟩, ?_⟩
      have hcopied : copied offset added.length ((out ++ added).take out.length) =
          (out ++ added).take (out.length + added.length) := by
        refine copied_take hpos hback (by simp) (List.ext_getElem? fun index => ?_)
        by_cases hindex : index < added.length
        · have hplace : out.length - offset + index = out.length + index - offset := by omega
          rw [List.getElem?_take_of_lt hindex, List.getElem?_take_of_lt hindex,
            List.getElem?_drop, List.getElem?_drop, hplace, hsame index hindex]
        · rw [List.getElem?_take_eq_none (by omega), List.getElem?_take_eq_none (by omega)]
      rw [List.take_left, ← List.length_append, List.take_length] at hcopied
      rw [replay, ← hcopied, copied]
    · rintro ⟨⟨hpos, hback⟩, hreplay⟩
      rw [replay] at hreplay
      have hsize := congrArg Array.size hreplay
      rw [size_copyBack] at hsize
      simp only [List.size_toArray, List.length_append] at hsize
      refine ⟨hpos, hback, by omega, fun index hindex => ?_⟩
      have hsame := @getElem?_copyBack offset length out.toArray hpos (by simpa using hback) index
        hindex
      rwa [hreplay, List.getElem?_toArray, List.getElem?_toArray, List.size_toArray] at hsame

theorem Element.Adds.length_eq {e : Element} {out added : Bytes} (h : e.Adds out added) :
    added.length = e.size := by
  cases e with
  | literal bytes =>
    rw [Adds] at h
    rw [h, size]
  | copy offset length => exact h.2.2.1

theorem Element.exists_adds {e : Element} {out : Bytes} (h : e.Reaches out.length) :
    ∃ added, e.Adds out added ∧ e.replay out.toArray = (out ++ added).toArray := by
  suffices hgrown : ∃ added, e.replay out.toArray = (out ++ added).toArray by
    obtain ⟨added, hadded⟩ := hgrown
    exact ⟨added, adds_iff.2 ⟨h, hadded⟩, hadded⟩
  cases e with
  | literal bytes => exact ⟨bytes, by simp [replay]⟩
  | copy offset length =>
    refine ⟨(copyBack offset length out.toArray).toList.drop out.length, ?_⟩
    have hfront : (copyBack offset length out.toArray).toList.take out.length = out := by
      refine List.ext_getElem? fun index => ?_
      by_cases hindex : index < out.length
      · rw [List.getElem?_take_of_lt hindex, Array.getElem?_toList,
          getElem?_copyBack_of_lt (by simpa using hindex), List.getElem?_toArray]
      · rw [List.getElem?_take_eq_none (by omega), List.getElem?_eq_none (by omega)]
    rw [replay]
    nth_rewrite 2 [← hfront]
    rw [List.take_append_drop]

theorem Element.Form.exists_cons {e : Element} {form : Bytes} (h : e.Form form) :
    ∃ tag tail, form = tag :: tail := by
  cases h <;> exact ⟨_, _, rfl⟩

/-- A row never makes the output shorter. -/
theorem Row.le_length {allowed : Element → Bytes → Prop} {out row data : Bytes}
    (h : Row allowed out row data) : out.length ≤ data.length := by
  induction h with
  | nil => exact Nat.le_refl _
  | cons stored adds next ih =>
    rw [List.length_append] at ih
    omega

/-- The reader follows exactly the rows that do not run past the announced length. -/
theorem expand_eq_ok_iff {total : Nat} {bytes out data : Bytes} (hout : out.length ≤ total) :
    expand total bytes out.toArray = .ok data.toArray ↔
      Row Element.Form out bytes data ∧ data.length ≤ total := by
  constructor
  · intro h
    -- the reader goes on after each element with fewer bytes than before
    induction hlength : bytes.length using Nat.strong_induction_on generalizing bytes out with
    | _ n ih =>
      subst hlength
      cases bytes with
      | nil =>
        rw [expand] at h
        obtain rfl := List.toArray_inj (Except.ok.inj h)
        exact ⟨.nil, hout⟩
      | cons tag bytes =>
        rw [expand] at h
        split at h
        · cases h
        · rename_i e rest hread
          rw [List.size_toArray] at hread
          obtain ⟨tail, rfl, hform, hreaches, hroom⟩ := Element.form_of_read hread
          obtain ⟨added, hadds, hreplay⟩ := Element.exists_adds hreaches
          rw [hreplay] at h
          have hsize := hadds.length_eq
          obtain ⟨hrow, hbound⟩ := ih rest.length (by simp)
            (by rw [List.length_append]; omega) h rfl
          exact ⟨.cons hform hadds hrow, hbound⟩
  · rintro ⟨hrow, hbound⟩
    induction hrow with
    | nil => rw [expand]
    | @cons out added form rest data e stored adds next ih =>
      obtain ⟨tag, tail, rfl⟩ := stored.exists_cons
      obtain ⟨hreaches, hreplay⟩ := Element.adds_iff.1 adds
      have hgrown := next.le_length
      have hsize := adds.length_eq
      rw [List.length_append] at hgrown
      have hread : Element.read out.toArray.size total tag (tail ++ rest) = .ok (e, rest) := by
        rw [List.size_toArray]
        exact stored.read hreaches (by omega)
      rw [List.cons_append, expand_cons hread, hreplay]
      exact ih (by rw [List.length_append]; omega) hbound

/-- The reader takes exactly the streams that go by its rules, each as the data that it stands for. -/
theorem decode_eq_ok_iff {stream data : Bytes} :
    decode stream = .ok data ↔ StreamOf stream data := by
  rw [decode]
  constructor
  · intro h
    cases hheader : readHeader stream with
    | error e => simp [hheader] at h
    | ok found =>
      obtain ⟨total, bytes⟩ := found
      simp only [hheader] at h
      cases hexpand : expand total bytes #[] with
      | error e => simp [hexpand] at h
      | ok out =>
        simp only [hexpand] at h
        split at h
        · rename_i htotal
          obtain rfl := Except.ok.inj h
          obtain ⟨header, rfl, hannounced⟩ := readHeader_eq_ok_iff.1 hheader
          obtain ⟨hrow, -⟩ :=
            (@expand_eq_ok_iff total bytes [] out.toList (Nat.zero_le total)).1 hexpand
          rw [← htotal] at hannounced
          exact ⟨header, bytes, rfl, by simpa using hannounced, hrow⟩
        · cases h
  · rintro ⟨header, row, rfl, hheader, hrow⟩
    have hexpand : expand data.length row #[] = .ok data.toArray :=
      (expand_eq_ok_iff (Nat.zero_le _)).2 ⟨hrow, Nat.le_refl _⟩
    rw [readHeader_eq_ok_iff.2 ⟨header, rfl, hheader⟩]
    simp [hexpand]

/-- Whatever a writer makes of data, the reader takes it as that data. -/
theorem decode_of_written {stream data : Bytes} (h : Written stream data) :
    decode stream = .ok data :=
  decode_eq_ok_iff.2 h.streamOf

end BlockDir.Snappy
