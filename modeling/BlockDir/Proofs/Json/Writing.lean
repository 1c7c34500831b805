import BlockDir.Config.Json
import BlockDir.Proofs.Layout.Keys

/-!
# What is written as JSON is read

A string is read as the text that was written, whichever of its bytes are escaped (`readUnits_written`),
and a number up to the byte that follows its digits (`readNumber_digits`). So the tokens of an object are
those of its keys and values between its braces, colons and commas, and it is read as the object of the
values that are written in it (`parse_writeObject`).
-/

namespace BlockDir.Json

/-! ## Strings -/

theorem hexDigit?_written {n : Nat} (h : n < 16) :
    hexDigit? (UInt8.ofNat (if n < 10 then 48 + n else 87 + n)) = some n := by
  interval_cases n <;> rfl

/-- A byte between quotes is written by the letter that is short for it, by its code, or as it is. -/
theorem escapeByte_cases (byte : UInt8) :
    (∃ letter, escapeByte byte = [92, letter] ∧ letter ≠ 117 ∧ shortEscape? letter = some byte) ∨
      (∃ high low, escapeByte byte = [92, 117, 48, 48, high, low] ∧ byte.toNat < 32 ∧
        hexCode? 48 48 high low = some byte.toNat) ∨
      escapeByte byte = [byte] ∧ 32 ≤ byte.toNat ∧ byte ≠ 34 ∧ byte ≠ 92 := by
  unfold escapeByte
  split
  case h_8 hquote hslash _ _ _ _ _ =>
    split
    · rename_i hcontrol
      refine .inr (.inl ⟨_, _, rfl, hcontrol, ?_⟩)
      have hhigh := hexDigit?_written (show byte.toNat / 16 < 16 by omega)
      have hlow := hexDigit?_written (Nat.mod_lt byte.toNat (by decide : 16 > 0))
      rw [if_pos (by omega)] at hhigh
      have hzero : hexDigit? 48 = some 0 := rfl
      rw [hexCode?, hzero, hhigh, hlow]
      simp only [Option.pure_def, Option.bind_eq_bind, Option.bind_some]
      congr 1
      omega
    · rename_i hplain
      refine .inr (.inr ⟨rfl, by omega, ?_, ?_⟩)
      · rintro rfl
        exact hquote rfl
      · rintro rfl
        exact hslash rfl
  all_goals
    rename_i heq
    have hbyte := congrArg UInt8.ofNat heq
    rw [UInt8.ofNat_toNat] at hbyte
    subst hbyte
    exact .inl ⟨_, rfl, by decide, rfl⟩

theorem readUnits_short (found : List StringPart) {letter byte : UInt8} (hletter : letter ≠ 117)
    (h : shortEscape? letter = some byte) (rest : Bytes) :
    readUnits found (92 :: letter :: rest) = readUnits (.byte byte :: found) rest := by
  rw [readUnits, h]
  intro a b c d more heq
  exact absurd heq hletter

theorem readUnits_code (found : List StringPart) {a b c d : UInt8} {code : Nat}
    (h : hexCode? a b c d = some code) (rest : Bytes) :
    readUnits found (92 :: 117 :: a :: b :: c :: d :: rest) =
      readUnits (.escape code :: found) rest := by
  rw [readUnits, h]

theorem readUnits_plain (found : List StringPart) {byte : UInt8} (hlow : 32 ≤ byte.toNat)
    (hquote : byte ≠ 34) (hslash : byte ≠ 92) (rest : Bytes) :
    readUnits found (byte :: rest) = readUnits (.byte byte :: found) rest := by
  have hcontrol : ¬ byte < 32 := by
    rw [UInt8.lt_iff_toNat_lt]
    simp
    omega
  rw [readUnits, if_neg (by simp [hcontrol, hslash])]
  · exact hquote
  · intro a b c d more heq
    exact absurd heq hslash
  · intro letter more heq
    exact absurd heq hslash

/-- The code of a character of one byte stands for that byte. -/
theorem unitBytes_code {byte : UInt8} (h : byte.toNat < 32) (rest : List StringPart) :
    unitBytes (.escape byte.toNat :: rest) = (unitBytes rest).map (byte :: ·) := by
  have hchar : (Char.ofNat byte.toNat).toNat = byte.toNat := by
    rw [Char.toNat_ofNat, if_pos]
    exact .inl (by omega)
  have hencoded : Utf8.encodeChar (Char.ofNat byte.toNat) = [byte] := by
    rw [Utf8.encodeChar, hchar, if_pos (by omega), UInt8.ofNat_toNat]
  have hlow : ¬ 0xD800 ≤ byte.toNat := by omega
  cases rest with
  | nil => simp [unitBytes, hlow, hencoded]
  | cons unit more =>
    have hhigh : ¬ 0xDC00 ≤ byte.toNat := by omega
    cases unit with
    | byte value => simp [unitBytes, hlow, hencoded]
    | escape code => simp [unitBytes, hlow, hhigh, hencoded]

/-- The written form of a byte is read as one part, which stands for that byte. -/
theorem readUnits_escapeByte (byte : UInt8) : ∃ unit,
    (∀ found rest, readUnits found (escapeByte byte ++ rest) = readUnits (unit :: found) rest) ∧
      ∀ more, unitBytes (unit :: more) = (unitBytes more).map (byte :: ·) := by
  obtain ⟨letter, hform, hletter, hshort⟩ | ⟨high, low, hform, hcontrol, hcode⟩ |
    ⟨hform, hlow, hquote, hslash⟩ := escapeByte_cases byte
  · refine ⟨.byte byte, fun found rest => ?_, fun more => rfl⟩
    rw [hform]
    exact readUnits_short found hletter hshort rest
  · refine ⟨.escape byte.toNat, fun found rest => ?_, unitBytes_code hcontrol⟩
    rw [hform]
    exact readUnits_code found hcode rest
  · refine ⟨.byte byte, fun found rest => ?_, fun more => rfl⟩
    rw [hform]
    exact readUnits_plain found hlow hquote hslash rest

/-- What is written between quotes is read up to the closing one. -/
theorem readUnits_written (bytes : Bytes) (found : List StringPart) (rest : Bytes) :
    ∃ units, readUnits found (bytes.flatMap escapeByte ++ 34 :: rest) =
        some (found.reverse ++ units, rest) ∧
      unitBytes units = some bytes := by
  induction bytes generalizing found with
  | nil => exact ⟨[], by simp [readUnits], rfl⟩
  | cons byte more ih =>
    obtain ⟨unit, hread, hstands⟩ := readUnits_escapeByte byte
    obtain ⟨units, hunits, hbytes⟩ := ih (unit :: found)
    refine ⟨unit :: units, ?_, ?_⟩
    · rw [List.flatMap_cons, List.append_assoc, hread, hunits]
      simp
    · rw [hstands, hbytes]
      rfl

/-! ## Numbers -/

/-- A byte that follows a value in an object: a comma or the closing brace. -/
def Stops (byte : UInt8) : Prop := byte = 44 ∨ byte = 125

/-- Only zero itself begins with the digit zero. -/
theorem digits_of_zero {n : Nat} {more : Bytes} (h : Decimal.digits n = 48 :: more) :
    n = 0 ∧ more = [] := by
  fun_induction Decimal.digits n generalizing more with
  | case1 n hsmall =>
    obtain ⟨hdigit, rfl⟩ := List.cons.inj h
    have hvalue := Decimal.toNat_digit hsmall
    rw [hdigit] at hvalue
    have hzero : (48 : UInt8).toNat = 48 := rfl
    exact ⟨by omega, rfl⟩
  | case2 n hlarge ih =>
    obtain ⟨first, rest, hfront⟩ := List.exists_cons_of_ne_nil (Decimal.digits_ne_nil (n / 10))
    rw [hfront, List.cons_append] at h
    rw [(List.cons.inj h).1] at hfront
    have hzero := (ih hfront).1
    omega

/-- The digits of a number are read up to the byte that ends it. -/
theorem readDigits_digits (n : Nat) {stop : UInt8} (hstop : Stops stop) (rest : Bytes) :
    readDigits (Decimal.digits n ++ stop :: rest) = some (Decimal.digits n, stop :: rest) := by
  have hdigits : ∀ byte ∈ Decimal.digits n, Decimal.isDigit byte = true := by
    intro byte hmem
    exact (Decimal.isDigit_iff byte).2 (Decimal.isDigit_of_mem_digits hmem)
  have hnone : Decimal.isDigit stop = false := by
    rcases hstop with rfl | rfl <;> rfl
  have htake : (Decimal.digits n ++ stop :: rest).takeWhile Decimal.isDigit = Decimal.digits n := by
    rw [List.takeWhile_append_of_pos hdigits, List.takeWhile_cons_of_neg (by simp [hnone]),
      List.append_nil]
  rw [readDigits, htake, List.drop_left]
  simp [Decimal.digits_ne_nil]

theorem readNumber_digits {n : Nat} (h : n ≤ Decimal.max64) {stop : UInt8} (hstop : Stops stop)
    (rest : Bytes) :
    readNumber (Decimal.digits n ++ stop :: rest) = some (some n, stop :: rest) := by
  have hfraction : readFraction (stop :: rest) = some (false, stop :: rest) := by
    rcases hstop with rfl | rfl <;> rfl
  have hexponent : readExponent (stop :: rest) = some (false, stop :: rest) := by
    rcases hstop with rfl | rfl <;> rfl
  have hvalue := Decimal.readDigits64?_digits h
  obtain ⟨first, more, hdigits⟩ := List.exists_cons_of_ne_nil (Decimal.digits_ne_nil n)
  by_cases hzero : first = 48
  · subst hzero
    obtain ⟨-, rfl⟩ := digits_of_zero hdigits
    rw [hdigits] at hvalue
    rw [hdigits, List.singleton_append, readNumber]
    simp [hfraction, hexponent, hvalue]
  · rw [readNumber, readDigits_digits n hstop rest]
    · simp [hfraction, hexponent, hvalue]
    · intro behind heq
      rw [hdigits, List.cons_append] at heq
      exact hzero (List.cons.inj heq).1

theorem readToken_digit {byte : UInt8} (hlow : 48 ≤ byte.toNat) (hhigh : byte.toNat ≤ 57)
    (rest : Bytes) :
    readToken byte rest =
      (readNumber (byte :: rest)).map fun (value, rest) => (.number value, rest) := by
  have hdigit := (Decimal.isDigit_iff byte).2 ⟨hlow, hhigh⟩
  unfold readToken
  split
  case h_12 => rw [if_pos hdigit]
  all_goals omega

/-! ## Tokens -/

/-- A byte string begins with these tokens, and this follows them. -/
def Begins (bytes : Bytes) (tokens : List Token) (rest : Bytes) : Prop :=
  ∀ found limit, bytes.length ≤ limit → ∃ left, rest.length ≤ left ∧
    tokensWithin found limit bytes = tokensWithin (tokens.reverse ++ found) left rest

theorem Begins.append {a b c : Bytes} {first second : List Token} (h : Begins a first b)
    (h' : Begins b second c) : Begins a (first ++ second) c := by
  intro found limit hlimit
  obtain ⟨middle, hmiddle, hfirst⟩ := h found limit hlimit
  obtain ⟨left, hleft, hsecond⟩ := h' (first.reverse ++ found) middle hmiddle
  exact ⟨left, hleft, by rw [hfirst, hsecond, List.reverse_append, List.append_assoc]⟩

theorem begins_of_readToken {byte : UInt8} {rest after : Bytes} {token : Token}
    (hblank : isBlank byte = false) (h : readToken byte rest = some (token, after))
    (hless : after.length ≤ rest.length) : Begins (byte :: rest) [token] after := by
  intro found limit hlimit
  rw [List.length_cons] at hlimit
  obtain ⟨left, rfl⟩ : ∃ left, limit = left + 1 := ⟨limit - 1, by omega⟩
  refine ⟨left, by omega, ?_⟩
  rw [tokensWithin, hblank, h]
  rfl

theorem tokens_of_begins {bytes : Bytes} {all : List Token} (h : Begins bytes all []) :
    tokens bytes = some all := by
  obtain ⟨left, -, htokens⟩ := h [] bytes.length (Nat.le_refl _)
  rw [tokens, htokens, tokensWithin, List.append_nil, List.reverse_reverse]

theorem begins_writeText (text : String) (rest : Bytes) :
    Begins (writeText text ++ rest) [.string (some text)] rest := by
  obtain ⟨units, hunits, hbytes⟩ := readUnits_written (Utf8.encode text) [] rest
  have htext : unitText? units = some text := by
    rw [unitText?, hbytes, Option.bind_some, Utf8.decode?_encode]
  have hform : writeText text ++ rest =
      34 :: ((Utf8.encode text).flatMap escapeByte ++ 34 :: rest) := by
    simp [writeText]
  rw [hform]
  refine begins_of_readToken rfl ?_ (by simp; omega)
  show (readUnits [] _).map _ = _
  rw [hunits]
  simp [htext]

/-- A written value is one token wherever it stands in an object. -/
def Writes (bytes : Bytes) (token : Token) : Prop :=
  ∀ stop rest, Stops stop → Begins (bytes ++ stop :: rest) [token] (stop :: rest)

theorem writes_text (text : String) : Writes (writeText text) (.string (some text)) :=
  fun _ _ _ => begins_writeText text _

theorem writes_bool (value : Bool) : Writes (writeBool value) (.bool value) := by
  intro stop rest _
  cases value with
  | false =>
    have hform : writeBool false = [102, 97, 108, 115, 101] := rfl
    rw [hform]
    exact begins_of_readToken rfl rfl (by simp)
  | true =>
    have hform : writeBool true = [116, 114, 117, 101] := rfl
    rw [hform]
    exact begins_of_readToken rfl rfl (by simp)

theorem writes_digits {n : Nat} (h : n ≤ Decimal.max64) :
    Writes (Decimal.digits n) (.number (some n)) := by
  intro stop rest hstop
  obtain ⟨first, more, hdigits⟩ := List.exists_cons_of_ne_nil (Decimal.digits_ne_nil n)
  have hfirst : first ∈ Decimal.digits n := by simp [hdigits]
  obtain ⟨hlow, hhigh⟩ := Decimal.isDigit_of_mem_digits hfirst
  have hnumber := readNumber_digits h hstop rest
  rw [hdigits, List.cons_append] at hnumber ⊢
  refine begins_of_readToken ?_ ?_ (by simp)
  · have hne : ∀ blank : UInt8, blank.toNat < 48 → first ≠ blank := by
      rintro blank hless rfl
      omega
    simp [isBlank, hne]
  · rw [readToken_digit hlow hhigh, hnumber]
    rfl

/-! ## Objects -/

/-- What the bytes before `rest` do to the state of the reader. -/
def Leads (bytes rest : Bytes) (before after : Next × List Frame) : Prop :=
  ∃ found, Begins bytes found rest ∧ found.foldlM step before = some after

theorem Leads.trans {a b c : Bytes} {s t u : Next × List Frame} (h : Leads a b s t)
    (h' : Leads b c t u) : Leads a c s u := by
  obtain ⟨first, hfirst, hstep⟩ := h
  obtain ⟨second, hsecond, hstep'⟩ := h'
  refine ⟨first ++ second, hfirst.append hsecond, ?_⟩
  rw [List.foldlM_append, hstep]
  exact hstep'

theorem leads_of_begins {bytes rest : Bytes} {token : Token} {before after : Next × List Frame}
    (h : Begins bytes [token] rest) (hstep : step before token = some after) :
    Leads bytes rest before after :=
  ⟨[token], h, by rw [List.foldlM_cons, hstep]; rfl⟩

/-- A byte that is a token by itself. -/
theorem leads_of_readToken (token : Token) {byte : UInt8} {rest : Bytes}
    {before after : Next × List Frame} (hblank : isBlank byte = false)
    (h : readToken byte rest = some (token, rest)) (hstep : step before token = some after) :
    Leads (byte :: rest) rest before after :=
  leads_of_begins (begins_of_readToken hblank h (Nat.le_refl _)) hstep

theorem parse_of_leads {bytes : Bytes} {value : Json}
    (h : Leads bytes [] (.value, []) (.complete value, [])) : parse bytes = some value := by
  obtain ⟨found, hbegins, hfold⟩ := h
  rw [parse, tokens_of_begins hbegins, Option.bind_some, ofTokens, hfold]

/-- A key with the written form of its value, and the value. -/
structure Member where
  key : String
  written : Bytes
  value : Json

/-- Whether the written form of a member's value is one token that stands for it. -/
def Member.Stands (member : Member) : Prop :=
  ∃ token, Writes member.written token ∧ ofToken? token = some member.value

theorem beginValue_of_ofToken? {token : Token} {value : Json} (h : ofToken? token = some value)
    (stack : List Frame) : beginValue token stack = some (.complete value, stack) := by
  cases token with
  | openBrace | closeBrace | openBracket | closeBracket | colon | comma => cases h
  | null | bool value | number natural | string text =>
    cases h
    rfl

/-- A member is read up to what follows it, whether or not it is the first of its object. -/
theorem Member.leads {member : Member} (h : member.Stands) {start : Next}
    (hstart : start = .firstKey ∨ start = .key) {stop : UInt8} (hstop : Stops stop) (rest : Bytes)
    (fields : List (Option String × Json)) (key : Option String) (stack : List Frame) :
    Leads (writeText member.key ++ 58 :: member.written ++ stop :: rest) (stop :: rest)
      (start, .object fields key :: stack)
      (.complete member.value, .object fields (some member.key) :: stack) := by
  obtain ⟨token, hwrites, htoken⟩ := h
  have hkey : step (start, .object fields key :: stack) (.string (some member.key)) =
      some (.colon, .object fields (some member.key) :: stack) := by
    rcases hstart with rfl | rfl <;> rfl
  rw [List.append_assoc, List.cons_append]
  refine (leads_of_begins (begins_writeText member.key _) hkey).trans ?_
  refine (leads_of_readToken .colon rfl rfl rfl).trans ?_
  exact leads_of_begins (hwrites stop rest hstop) (beginValue_of_ofToken? htoken _)

/-- The members of an object are read up to its closing brace. -/
theorem leads_members {members : List Member} (h : ∀ member ∈ members, member.Stands)
    (hne : members ≠ []) {start : Next} (hstart : start = .firstKey ∨ start = .key) (rest : Bytes)
    (fields : List (Option String × Json)) (key : Option String) (stack : List Frame) :
    Leads ([44].intercalate (members.map fun m => writeText m.key ++ 58 :: m.written) ++ 125 :: rest)
      rest (start, .object fields key :: stack)
      (.complete (.object (fields.reverse ++ members.map fun m => (some m.key, m.value))), stack) := by
  induction members generalizing start fields key with
  | nil => exact absurd rfl hne
  | cons first more ih =>
    have hfirst := h first List.mem_cons_self
    cases more with
    | nil =>
      rw [List.map_singleton, List.intercalate_singleton]
      refine (first.leads hfirst hstart (.inr rfl) rest fields key stack).trans ?_
      refine leads_of_readToken .closeBrace rfl rfl ?_
      simp [step]
    | cons second others =>
      rw [List.map_cons, List.intercalate_cons_of_ne_nil (by simp), List.append_assoc,
        List.append_assoc]
      refine (first.leads hfirst hstart (.inl rfl) _ fields key stack).trans ?_
      refine (leads_of_readToken .comma rfl rfl rfl).trans ?_
      have hmore := ih (fun member hmem => h member (List.mem_cons_of_mem _ hmem))
        (List.cons_ne_nil _ _) (.inr rfl) ((some first.key, first.value) :: fields) none
      rw [List.reverse_cons, List.append_assoc] at hmore
      exact hmore

/-- An object is read as it was written. -/
theorem parse_writeObject {members : List Member} (h : ∀ member ∈ members, member.Stands) :
    parse (writeObject (members.map fun m => (m.key, m.written))) =
      some (.object (members.map fun m => (some m.key, m.value))) := by
  refine parse_of_leads ?_
  rw [writeObject, List.map_map, List.cons_append]
  refine (leads_of_readToken .openBrace rfl rfl rfl).trans ?_
  by_cases hempty : members = []
  · subst hempty
    exact leads_of_readToken .closeBrace rfl rfl rfl
  · exact leads_members h hempty (.inl rfl) [] [] none []

end BlockDir.Json
