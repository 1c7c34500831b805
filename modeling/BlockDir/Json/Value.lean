import BlockDir.Json.Token

/-!
# JSON values

Builds a value from tokens, one token at a time, with the unfinished arrays and objects on a stack,
so that nesting has no limit. Nothing may follow the value.
-/

namespace BlockDir

/-- A JSON value, as far as settings need it. -/
inductive Json where
  | null
  | bool (value : Bool)
  /-- A number; its value if it is written as a natural number and has at most 64 bits. -/
  | number (natural : Option Nat)
  /-- A string; its text if it is one. -/
  | string (text : Option String)
  | array (items : List Json)
  | object (fields : List (Option String × Json))

namespace Json

/-- An array or object that is not finished; what it holds so far, last first. -/
inductive Frame where
  | array (items : List Json)
  /-- An object whose next value belongs to `key`. -/
  | object (fields : List (Option String × Json)) (key : Option String)

/-- What must come next. -/
inductive Next where
  | value
  /-- A value, or the end of the array just opened. -/
  | firstItem
  /-- A key, or the end of the object just opened. -/
  | firstKey
  | key
  | colon
  /-- A value is complete: what follows it is up to the frame around it. -/
  | complete (value : Json)

/-- A value that stands for itself in one token. -/
def ofToken? : Token → Option Json
  | .null => some .null
  | .bool value => some (.bool value)
  | .number natural => some (.number natural)
  | .string text => some (.string text)
  | _ => none

/-- Takes the first token of a value. -/
def beginValue (token : Token) (stack : List Frame) : Option (Next × List Frame) :=
  match token with
  | .openBracket => some (.firstItem, .array [] :: stack)
  | .openBrace => some (.firstKey, .object [] none :: stack)
  | _ => (ofToken? token).map fun value => (.complete value, stack)

/-- Takes one token. -/
def step (state : Next × List Frame) (token : Token) : Option (Next × List Frame) :=
  match state.1, token, state.2 with
  | .firstItem, .closeBracket, .array items :: stack => some (.complete (.array items), stack)
  | .firstItem, _, stack => beginValue token stack
  | .value, _, stack => beginValue token stack
  | .firstKey, .closeBrace, .object fields _ :: stack =>
    some (.complete (.object fields), stack)
  | .firstKey, .string key, .object fields _ :: stack => some (.colon, .object fields key :: stack)
  | .key, .string key, .object fields _ :: stack => some (.colon, .object fields key :: stack)
  | .colon, .colon, stack => some (.value, stack)
  | .complete value, .comma, .array items :: stack => some (.value, .array (value :: items) :: stack)
  | .complete value, .closeBracket, .array items :: stack =>
    some (.complete (.array (value :: items).reverse), stack)
  | .complete value, .comma, .object fields key :: stack =>
    some (.key, .object ((key, value) :: fields) none :: stack)
  | .complete value, .closeBrace, .object fields key :: stack =>
    some (.complete (.object ((key, value) :: fields).reverse), stack)
  | _, _, _ => none

/-- The value that a row of tokens stands for. -/
def ofTokens (tokens : List Token) : Option Json :=
  match tokens.foldlM step (.value, []) with
  | some (.complete value, []) => some value
  | _ => none

/-- The value that a byte string stands for. -/
def parse (bytes : Bytes) : Option Json := (tokens bytes).bind ofTokens

end Json

end BlockDir
