import BlockDir.Config
import BlockDir.Text.Blank
import BlockDir.Text.Decimal

/-!
# Settings from the environment

Each setting has a variable that overrides it. The variables are looked at in a fixed order, the
first that cannot be read is the error, and the result is validated.
-/

namespace BlockDir.Config

/-- Reads a number, blanks around it aside. -/
def readNumber (setting raw : String) : Except Error Nat :=
  match Decimal.read64? (Utf8.encode (String.ofList (Text.trim raw.toList))) with
  | some n => .ok n
  | none => .error (.config (.unparsable setting raw))

/-- Reads a yes or no, blanks around it and the case of its letters aside; nothing means no. -/
def readBool (setting raw : String) : Except Error Bool :=
  match String.ofList ((Text.trim raw.toList).map Text.lowerAscii) with
  | "1" | "true" | "yes" | "on" => .ok true
  | "0" | "false" | "no" | "off" | "" => .ok false
  | _ => .error (.config (.notBoolean setting raw))

/-- What the raw value of a variable changes. -/
abbrev Override := (setting raw : String) → Config → Except Error Config

/-- A variable that holds a text. -/
def Override.text (change : String → Config → Config) : Override := fun _ raw c =>
  .ok (change raw c)

/-- A variable that holds a number. -/
def Override.number (change : Nat → Config → Config) : Override := fun setting raw c =>
  (readNumber setting raw).map (change · c)

/-- A variable that holds a yes or no. -/
def Override.bool (change : Bool → Config → Config) : Override := fun setting raw c =>
  (readBool setting raw).map (change · c)

/-- The variables in the order in which they are looked at, and what each changes. -/
def overrides : List (String × Override) :=
  [("KVDIR_BLOCK_SIZE", .number fun v c => { c with blockSize := v }),
    ("KVDIR_CATALOG_KEY", .text fun v c => { c with catalogKey := v }),
    ("KVDIR_BLOCKS_KEY", .text fun v c => { c with blocksKey := v }),
    ("KVDIR_TIMEOUT_MS", .number fun v c => { c with connectionTimeout := v }),
    ("KVDIR_LOCK_DIR", .text fun v c => { c with lockDir := v }),
    ("KVDIR_COMPRESS", .bool fun v c => { c with compress := v }),
    ("KVDIR_SYNC_INTERVAL", .number fun v c => { c with syncInterval := v }),
    ("KVDIR_CHECKSUM", .bool fun v c => { c with checksum := v })]

/-- The settings with those that the environment overrides. -/
def withOverrides (c : Config) (lookup : String → Option String) : Except Error Config := do
  let c ← overrides.foldlM (fun c (setting, change) =>
    match lookup setting with
    | some raw => change setting raw c
    | none => .ok c) c
  c.validate
  return c

/-- The standard settings, with lock files where the environment has temporary files. -/
def standardIn (lookup : String → Option String) : Config :=
  match lookup "TMPDIR" with
  | some temporary => { standard with lockDir := lockDirBelow temporary }
  | none => standard

/-- The standard settings with those that the environment overrides. -/
def ofEnvironment (lookup : String → Option String) : Except Error Config :=
  (standardIn lookup).withOverrides lookup

end BlockDir.Config
