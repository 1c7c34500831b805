import BlockDir.Config
import BlockDir.Json.Value
import BlockDir.Text.Decimal

/-!
# Configurations as JSON

Settings are an object, in which unknown keys are passed over, no known key stands twice, and what
is absent keeps its standard value; or an array of the settings in order, in which the last ones may
be absent.
-/

namespace BlockDir

namespace Json

/-- How the settings of a record are read, in order: the key of each and what its value changes. -/
abbrev Schema (α : Type) := List (String × (Json → α → Option α))

variable {α : Type}

/-- Reads the fields of an object. `seen` are the known keys that were there already. -/
def readFields (schema : Schema α) (seen : List String) (record : α) :
    List (Option String × Json) → Option α
  | [] => some record
  | (none, _) :: _ => none
  | (some key, value) :: rest =>
    match schema.find? (·.1 = key) with
    | none => readFields schema seen record rest
    | some (_, change) =>
      if seen.contains key then none
      else
        match change value record with
        | some record => readFields schema (key :: seen) record rest
        | none => none

/-- Reads the items of an array as settings in order. -/
def readItems (record : α) : Schema α → List Json → Option α
  | _, [] => some record
  | [], _ :: _ => none
  | (_, change) :: schema, value :: rest =>
    match change value record with
    | some record => readItems record schema rest
    | none => none

/-- Reads a record over standard settings. -/
def readRecord (schema : Schema α) (standard : α) : Json → Option α
  | .object fields => readFields schema [] standard fields
  | .array items => readItems standard schema items
  | _ => none

/-- A number of 64 bits. -/
def toNat64? : Json → Option Nat
  | .number natural => natural
  | _ => none

/-- A yes or no. -/
def toBool? : Json → Option Bool
  | .bool value => some value
  | _ => none

/-- A text. -/
def toText? : Json → Option String
  | .string text => text
  | _ => none

/-- A byte of a string as it is written between quotes. -/
def escapeByte (byte : UInt8) : Bytes :=
  match byte.toNat with
  | 34 => [92, 34]
  | 92 => [92, 92]
  | 8 => [92, 98]
  | 9 => [92, 116]
  | 10 => [92, 110]
  | 12 => [92, 102]
  | 13 => [92, 114]
  | n =>
    if n < 32 then
      [92, 117, 48, 48, UInt8.ofNat (48 + n / 16),
        UInt8.ofNat (if n % 16 < 10 then 48 + n % 16 else 87 + n % 16)]
    else [byte]

/-- A text between quotes. -/
def writeText (text : String) : Bytes :=
  34 :: (Utf8.encode text).flatMap escapeByte ++ [34]

/-- A yes or no. -/
def writeBool (value : Bool) : Bytes := Utf8.encode (if value then "true" else "false")

/-- An object from its keys and the written forms of its values. -/
def writeObject (fields : List (String × Bytes)) : Bytes :=
  123 :: [44].intercalate (fields.map fun (key, value) => writeText key ++ 58 :: value) ++ [125]

end Json

namespace Config

/-- The settings of a directory in JSON. -/
def schema : Json.Schema Config :=
  [("block_size", fun j c => j.toNat64?.map fun v => { c with blockSize := v }),
    ("catalog_key", fun j c => j.toText?.map fun v => { c with catalogKey := v }),
    ("blocks_key", fun j c => j.toText?.map fun v => { c with blocksKey := v }),
    ("connection_timeout_ms", fun j c => j.toNat64?.map fun v => { c with connectionTimeout := v }),
    ("lock_dir", fun j c => j.toText?.map fun v => { c with lockDir := v }),
    ("compress", fun j c => j.toBool?.map fun v => { c with compress := v }),
    ("sync_interval", fun j c => j.toNat64?.map fun v => { c with syncInterval := v }),
    ("checksum", fun j c => j.toBool?.map fun v => { c with checksum := v })]

/-- Reads and validates settings. -/
def ofJson (bytes : Bytes) : Except Error Config :=
  match (Json.parse bytes).bind (Json.readRecord schema standard) with
  | none => .error .malformedJson
  | some c =>
    match c.validate with
    | .ok () => .ok c
    | .error e => .error e

/-- Reads and validates the settings in a file: its path and what reading it gave. -/
def ofFile (path : String) (content : Except IoError Bytes) : Except Error Config :=
  match content with
  | .error e => .error (.config (.unreadable path e.text))
  | .ok bytes => ofJson bytes

/-- Writes settings. -/
def toJson (c : Config) : Bytes :=
  Json.writeObject
    [("block_size", Decimal.digits c.blockSize),
      ("catalog_key", Json.writeText c.catalogKey),
      ("blocks_key", Json.writeText c.blocksKey),
      ("connection_timeout_ms", Decimal.digits c.connectionTimeout),
      ("lock_dir", Json.writeText c.lockDir),
      ("compress", Json.writeBool c.compress),
      ("sync_interval", Decimal.digits c.syncInterval),
      ("checksum", Json.writeBool c.checksum)]

end Config

namespace PoolConfig

/-- The settings of a pool in JSON. -/
def schema : Json.Schema PoolConfig :=
  [("max_connections", fun j c => j.toNat64?.map fun v => { c with maxConnections := v }),
    ("checkout_timeout_ms", fun j c => j.toNat64?.map fun v => { c with checkoutTimeout := v })]

/-- Reads settings. -/
def ofJson (bytes : Bytes) : Except Error PoolConfig :=
  match (Json.parse bytes).bind (Json.readRecord schema standard) with
  | none => .error .malformedJson
  | some c => .ok c

end PoolConfig

end BlockDir
