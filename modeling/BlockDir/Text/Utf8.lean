import BlockDir.Bytes

/-!
# UTF-8

Reads byte strings as text. A byte string falls into a row of pieces: well-formed characters,
stretches of one to three bytes that begin a character and break off at a byte that does not fit,
and an unfinished character at the very end (`pieces`). Strict reading reports the first piece that
is not a character (`decode`); lenient reading shows U+FFFD in its place (`lossy`).
-/

namespace BlockDir.Utf8

/-- One piece of a byte string read as UTF-8. -/
inductive Piece where
  /-- A well-formed character of `size` bytes. -/
  | char (c : Char) (size : Nat)
  /-- `size` bytes that begin a character which the next byte does not continue. -/
  | broken (size : Nat)
  /-- The string ends inside a character. -/
  | cut

/-- Where strict reading fails: after `index` good bytes, at `size` bytes that belong to no
character, or (`none`) at an unfinished character. -/
structure DecodeError where
  index : Nat
  size : Option Nat

/-- The report of a failed strict reading. -/
def DecodeError.message (e : DecodeError) : String :=
  match e.size with
  | some size => s!"invalid utf-8 sequence of {size} bytes from index {e.index}"
  | none => s!"incomplete utf-8 byte sequence from index {e.index}"

/-- The UTF-8 form of one character. -/
def encodeChar (c : Char) : Bytes :=
  let n := c.toNat
  if n < 0x80 then [UInt8.ofNat n]
  else if n < 0x800 then [UInt8.ofNat (0xC0 + n / 64), UInt8.ofNat (0x80 + n % 64)]
  else if n < 0x10000 then
    [UInt8.ofNat (0xE0 + n / 4096), UInt8.ofNat (0x80 + n / 64 % 64), UInt8.ofNat (0x80 + n % 64)]
  else
    [UInt8.ofNat (0xF0 + n / 262144), UInt8.ofNat (0x80 + n / 4096 % 64),
      UInt8.ofNat (0x80 + n / 64 % 64), UInt8.ofNat (0x80 + n % 64)]

/-- The UTF-8 form of a text. -/
def encode (text : String) : Bytes := text.toList.flatMap encodeChar

/-- How many bytes follow a first byte, and between which bounds the first of them must lie.
`none` for bytes that begin no character. -/
def follow (first : UInt8) : Option (Nat × UInt8 × UInt8) :=
  if first < 0x80 then some (0, 0, 0)
  else if first < 0xC2 then none
  else if first < 0xE0 then some (1, 0x80, 0xBF)
  else if first = 0xE0 then some (2, 0xA0, 0xBF)
  else if first = 0xED then some (2, 0x80, 0x9F)
  else if first < 0xF0 then some (2, 0x80, 0xBF)
  else if first = 0xF0 then some (3, 0x90, 0xBF)
  else if first < 0xF4 then some (3, 0x80, 0xBF)
  else if first = 0xF4 then some (3, 0x80, 0x8F)
  else none

/-- Whether a byte continues a character. -/
def continues (byte : UInt8) : Bool := 0x80 ≤ byte && byte < 0xC0

/-- The six payload bits of a byte that continues a character. -/
def payload (byte : UInt8) : Nat := byte.toNat % 64

/-- The pieces of a byte string, in order. -/
def pieces : Bytes → List Piece
  | [] => []
  | a :: rest =>
    match follow a with
    | none => .broken 1 :: pieces rest
    | some (0, _, _) => .char (Char.ofNat a.toNat) 1 :: pieces rest
    | some (more, low, high) =>
      match rest with
      | [] => [.cut]
      | b :: rest =>
        if b < low || high < b then .broken 1 :: pieces (b :: rest)
        else if more = 1 then
          .char (Char.ofNat (a.toNat % 32 * 64 + payload b)) 2 :: pieces rest
        else
          match rest with
          | [] => [.cut]
          | c :: rest =>
            if !continues c then .broken 2 :: pieces (c :: rest)
            else if more = 2 then
              .char (Char.ofNat (a.toNat % 16 * 4096 + payload b * 64 + payload c)) 3 ::
                pieces rest
            else
              match rest with
              | [] => [.cut]
              | d :: rest =>
                if !continues d then .broken 3 :: pieces (d :: rest)
                else
                  .char (Char.ofNat
                    (a.toNat % 8 * 262144 + payload b * 4096 + payload c * 64 + payload d)) 4 ::
                    pieces rest
termination_by bytes => bytes.length

/-- The characters of a row of pieces that starts after `index` bytes. -/
def charsFrom (index : Nat) (found : List Char) : List Piece → Except DecodeError (List Char)
  | [] => .ok found.reverse
  | .char c size :: rest => charsFrom (index + size) (c :: found) rest
  | .broken size :: _ => .error ⟨index, some size⟩
  | .cut :: _ => .error ⟨index, none⟩

/-- Strict reading: the text, or the first place where the bytes are not text. -/
def decode (bytes : Bytes) : Except DecodeError String :=
  (charsFrom 0 [] (pieces bytes)).map String.ofList

/-- The text, if the bytes are well-formed throughout. -/
def decode? (bytes : Bytes) : Option String := (decode bytes).toOption

/-- Lenient reading: U+FFFD stands for each piece that is not a character. -/
def lossy (bytes : Bytes) : String :=
  String.ofList <| (pieces bytes).map fun
    | .char c _ => c
    | _ => '\ufffd'

end BlockDir.Utf8
