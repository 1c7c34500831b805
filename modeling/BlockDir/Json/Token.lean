import BlockDir.Text.Decimal
import BlockDir.Text.Utf8

/-!
# Tokens of a JSON text

Cuts a byte string into the tokens of JSON. Blank space between tokens is passed over. A string
token carries its text, or `none` if what stands between the quotes is no text: bytes that are not
UTF-8, or half a surrogate pair. Control characters and unknown escapes make the whole text no JSON.
A number token carries its value if it is written as a natural number and has at most 64 bits, and
`none` otherwise.
-/

namespace BlockDir.Json

/-- A token of JSON. -/
inductive Token where
  | openBrace
  | closeBrace
  | openBracket
  | closeBracket
  | colon
  | comma
  | null
  | bool (value : Bool)
  | number (natural : Option Nat)
  | string (text : Option String)

/-- A part of a string: a byte as it stands, or sixteen bits of an escape. -/
inductive StringPart where
  | byte (value : UInt8)
  | escape (code : Nat)

/-- The value of a hexadecimal digit. -/
def hexDigit? (byte : UInt8) : Option Nat :=
  let n := byte.toNat
  if 48 ≤ n && n ≤ 57 then some (n - 48)
  else if 65 ≤ n && n ≤ 70 then some (n - 55)
  else if 97 ≤ n && n ≤ 102 then some (n - 87)
  else none

/-- The value of four hexadecimal digits. -/
def hexCode? (a b c d : UInt8) : Option Nat := do
  return (((← hexDigit? a) * 16 + (← hexDigit? b)) * 16 + (← hexDigit? c)) * 16 + (← hexDigit? d)

/-- The byte that a one-letter escape stands for. -/
def shortEscape? (byte : UInt8) : Option UInt8 :=
  match byte.toNat with
  | 34 => some 34
  | 47 => some 47
  | 92 => some 92
  | 98 => some 8
  | 102 => some 12
  | 110 => some 10
  | 114 => some 13
  | 116 => some 9
  | _ => none

/-- The parts of a string up to its closing quote, and what follows it. -/
def readUnits (found : List StringPart) : Bytes → Option (List StringPart × Bytes)
  | [] => none
  | 34 :: rest => some (found.reverse, rest)
  | 92 :: 117 :: a :: b :: c :: d :: rest =>
    match hexCode? a b c d with
    | some code => readUnits (.escape code :: found) rest
    | none => none
  | 92 :: letter :: rest =>
    match shortEscape? letter with
    | some byte => readUnits (.byte byte :: found) rest
    | none => none
  | byte :: rest => if byte < 32 || byte = 92 then none else readUnits (.byte byte :: found) rest

/-- The UTF-8 form of the parts of a string. A surrogate must be followed by its other half. -/
def unitBytes : List StringPart → Option Bytes
  | [] => some []
  | .byte value :: rest => (unitBytes rest).map (value :: ·)
  | .escape high :: .escape low :: rest =>
    if 0xD800 ≤ high && high < 0xDC00 then
      if 0xDC00 ≤ low && low < 0xE000 then
        (unitBytes rest).map
          (Utf8.encodeChar (Char.ofNat (0x10000 + (high - 0xD800) * 1024 + (low - 0xDC00))) ++ ·)
      else none
    else if 0xDC00 ≤ high && high < 0xE000 then none
    else (unitBytes (.escape low :: rest)).map (Utf8.encodeChar (Char.ofNat high) ++ ·)
  | .escape code :: rest =>
    if 0xD800 ≤ code && code < 0xE000 then none
    else (unitBytes rest).map (Utf8.encodeChar (Char.ofNat code) ++ ·)

/-- The text that the parts of a string stand for. -/
def unitText? (units : List StringPart) : Option String := (unitBytes units).bind Utf8.decode?

/-- One digit or more, and what follows them. -/
def readDigits (bytes : Bytes) : Option (Bytes × Bytes) :=
  let digits := bytes.takeWhile Decimal.isDigit
  if digits.isEmpty then none else some (digits, bytes.drop digits.length)

/-- A fraction, if there is one; answers whether there is. -/
def readFraction : Bytes → Option (Bool × Bytes)
  | 46 :: rest => (readDigits rest).map fun (_, rest) => (true, rest)
  | bytes => some (false, bytes)

/-- An exponent, if there is one; answers whether there is. -/
def readExponent (bytes : Bytes) : Option (Bool × Bytes) :=
  match bytes with
  | letter :: rest =>
    if letter = 69 || letter = 101 then
      let unsigned := match rest with
        | sign :: more => if sign = 43 || sign = 45 then more else rest
        | [] => rest
      (readDigits unsigned).map fun (_, rest) => (true, rest)
    else some (false, bytes)
  | [] => some (false, bytes)

/-- A number without its sign: its value if it is a natural number of 64 bits, and what follows it.
Only zero itself begins with the digit zero. -/
def readNumber (bytes : Bytes) : Option (Option Nat × Bytes) := do
  let (digits, rest) ← match bytes with
    | 48 :: rest => some ([48], rest)
    | _ => readDigits bytes
  let (fraction, rest) ← readFraction rest
  let (exponent, rest) ← readExponent rest
  return (if fraction || exponent then none else Decimal.readDigits64? digits, rest)

/-- Whether a byte is blank between tokens. -/
def isBlank (byte : UInt8) : Bool := byte = 32 || byte = 10 || byte = 9 || byte = 13

/-- One token from a byte and what follows it. -/
def readToken (byte : UInt8) (rest : Bytes) : Option (Token × Bytes) :=
  match byte.toNat, rest with
  | 123, _ => some (.openBrace, rest)
  | 125, _ => some (.closeBrace, rest)
  | 91, _ => some (.openBracket, rest)
  | 93, _ => some (.closeBracket, rest)
  | 58, _ => some (.colon, rest)
  | 44, _ => some (.comma, rest)
  | 110, 117 :: 108 :: 108 :: rest => some (.null, rest)
  | 116, 114 :: 117 :: 101 :: rest => some (.bool true, rest)
  | 102, 97 :: 108 :: 115 :: 101 :: rest => some (.bool false, rest)
  | 34, _ => (readUnits [] rest).map fun (units, rest) => (.string (unitText? units), rest)
  | 45, _ => (readNumber rest).map fun (_, rest) => (.number none, rest)
  | _, _ =>
    if Decimal.isDigit byte then (readNumber (byte :: rest)).map fun (value, rest) => (.number value, rest)
    else none

/-- The tokens of a byte string, after those already found, within `limit` steps. -/
def tokensWithin (found : List Token) : (limit : Nat) → Bytes → Option (List Token)
  | _, [] => some found.reverse
  | 0, _ => none
  | limit + 1, byte :: rest =>
    if isBlank byte then tokensWithin found limit rest
    else
      match readToken byte rest with
      | some (token, rest) => tokensWithin (token :: found) limit rest
      | none => none

/-- The tokens of a byte string; every step takes at least one byte. -/
def tokens (bytes : Bytes) : Option (List Token) := tokensWithin [] bytes.length bytes

end BlockDir.Json
