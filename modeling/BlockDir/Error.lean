import BlockDir.Snappy.Decoder
import BlockDir.Store.Command

/-!
# Errors

An error is a cause with the data that belongs to it. `Error.kind` sorts causes by what a caller can
do about them, and `Error.message` is the one place where their wording lives.
-/

namespace BlockDir

/-- What went wrong in the file system. -/
inductive IoKind where
  | notFound
  | permissionDenied
  | connectionAborted
  | alreadyExists
  | notADirectory
  | isADirectory
  | invalidFilename
  | invalidInput
  | unexpectedEnd
  | other

/-- A failure of a file operation or of a stream of bytes. -/
structure IoError where
  kind : IoKind
  text : String

/-- The kinds of errors. -/
inductive ErrorKind where
  | io
  | notFound
  | lockConflict
  | lockInvalidated
  | outOfRange
  | endOfStream
  | transport
  | inconsistent
  | codec
  | config
  | argument
  | state
  | closed
  | serialization
  /-- A call that no caller may make, such as dividing a file into blocks of no bytes. -/
  | misuse
deriving DecidableEq

/-- The words that open the message of an error of each kind. -/
def ErrorKind.heading : ErrorKind → String
  | io => "IO error"
  | notFound => "File not found"
  | lockConflict => "Lock conflict"
  | lockInvalidated => "Lock invalidated"
  | outOfRange => "Out of range"
  | endOfStream => "End of stream"
  | transport => "Transport failure"
  | inconsistent => "Consistency violation"
  | codec => "Codec error"
  | config => "Invalid config"
  | argument => "Invalid argument"
  | state => "Invalid state"
  | closed => "Already closed"
  | serialization => "Serialization error"
  | misuse => "Misuse"

/-- A list of indices in brackets, cut off after the first sixteen. -/
def showIndices (indices : List Nat) : String :=
  let shown := ", ".intercalate ((indices.take 16).map toString)
  if 16 < indices.length then s!"[{shown}, ... {indices.length - 16} more]" else s!"[{shown}]"

/-- A file that is not there. -/
inductive Missing where
  | input (name : String)
  | renamed (source dest : String)

/-- Who holds a lock that was asked for. -/
inductive Holder where
  | thisProcess
  | anotherProgram

/-- Why a lock is no longer good. -/
inductive LockFlaw where
  | released
  | cleared
  | content (size : Nat)
  | unreadable (reason : String)
  | replaced
  | unknownAtRelease

/-- An access outside of a cursor's view. -/
inductive OutOfView where
  | seek (target : Nat) (description : String) (length : Nat)
  | slice (name : String) (offset size length : Nat) (description : String)

/-- A read that the rest of a cursor's view cannot fill. -/
inductive ShortView where
  | byte (description : String) (length : Nat)
  | bytes (count position : Nat) (description : String) (length : Nat)

/-- Trouble with a link to a store. -/
inductive LinkTrouble where
  | shape (expected got : String)
  | checkoutTimeout (milliseconds inUse : Nat)
  | replyCount (sent received : Nat)
  | unfinished (verb : String) (key : Bytes) (reply : Reply)
  | lostBlocks (name : String) (indices : List Nat) (count : Nat)
  | fewBlocks (name : String) (received count : Nat)
  | closedLink

/-- Stored data that contradicts itself. -/
inductive Damage where
  | tooManyBlocks (name : String) (length count limit : Nat)
  | lengthWidth (name : String) (width expected : Nat)
  | missingBlocks (name : String) (length : Nat) (indices : List Nat)
  | shortBlock (name : String) (index size expected : Nat)

/-- Bytes that do not decode. -/
inductive Undecodable where
  | snappy (error : Snappy.DecodeError)
  | longVarint (limit : Nat)
  | negativeLength (length : Int)
  | notUtf8 (error : Utf8.DecodeError)

/-- A configuration that cannot be used. -/
inductive BadConfig where
  | blockSizeZero
  | blockSizeTooLarge (size limit : Nat)
  | syncIntervalZero
  | emptyKey
  | equalKeys (key : String)
  | noConnections
  | noShards
  | noNodes
  | unparsable (setting raw : String)
  | notBoolean (setting raw : String)
  | unreadable (path reason : String)

/-- An argument that a call refuses. -/
inductive BadArgument where
  | tooFewBlocks (name : String) (length count got : Nat)
  | blockCount (name : String) (count got : Nat)
  | emptyName
  | lockName (name : String)
  | longString (size : Nat)

/-- Something that is closed. -/
inductive ClosedThing where
  | singleBackend
  | clusterBackend
  | pool
  | poolDuringCheckout
  | directory (operation : String)
  | cursor (description : String)

/-- A call outside of what callers are promised. -/
inductive Misuse where
  | zeroBlockSize
  | noSuchBlock (index count : Nat)

/-- An error, by its cause. -/
inductive Error where
  | io (error : IoError)
  /-- An error raised by a connection or a caller, known by kind and text only. -/
  | reported (kind : ErrorKind) (text : String)
  | missing (what : Missing)
  | lockHeld (holder : Holder) (path : String)
  | lockInvalid (flaw : LockFlaw) (path : String)
  | outOfView (what : OutOfView)
  | shortView (what : ShortView)
  | link (trouble : LinkTrouble)
  | damaged (damage : Damage)
  | undecodable (what : Undecodable)
  /-- A block of `size` bytes is too large for its stored form. -/
  | unencodable (size : Nat)
  | config (what : BadConfig)
  | argument (what : BadArgument)
  | checksumDisabled (name : String)
  | closed (what : ClosedThing)
  | malformedJson
  | misuse (what : Misuse)

namespace Missing

def detail : Missing → String
  | input name => s!"open_input of '{name}'"
  | renamed source dest => s!"rename of '{source}' to '{dest}'"

end Missing

namespace Holder

def detail : Holder → String
  | thisProcess => "lock held by this process"
  | anotherProgram => "lock held by another program"

end Holder

namespace LockFlaw

/-- What a lock's path says about a flaw. A replaced file is reported without the path. -/
def detail (path : String) : LockFlaw → String
  | released => s!"lock instance already released: {path}"
  | cleared => s!"lock path unexpectedly cleared from held set: {path}"
  | content size => s!"unexpected lock file size {size}: {path}"
  | unreadable reason => s!"lock file unreadable ({reason}): {path}"
  | replaced => "lock file changed by an external force"
  | unknownAtRelease => s!"lock path was not in the held set at release: {path}"

end LockFlaw

namespace OutOfView

def detail : OutOfView → String
  | seek target description length =>
    s!"seek to {target} past EOF: {description} (length {length})"
  | slice name offset size length description =>
    s!"slice() {name} out of bounds: offset={offset}, length={size}, " ++
      s!"file length={length}: {description}"

end OutOfView

namespace ShortView

def detail : ShortView → String
  | byte description length => s!"read past EOF: {description} (length {length})"
  | bytes count position description length =>
    s!"read of {count} bytes past EOF at {position}: {description} (length {length})"

end ShortView

namespace LinkTrouble

def detail : LinkTrouble → String
  | shape expected got => s!"expected {expected} reply, got {got}"
  | checkoutTimeout milliseconds inUse =>
    s!"timed out after {milliseconds} ms waiting for a pooled connection ({inUse} in use)"
  | replyCount sent received =>
    s!"commit aborted: {sent} commands sent, {received} replies received"
  | unfinished verb key reply =>
    s!"{verb} on '{Utf8.lossy key}' did not complete: {reply.describe}"
  | lostBlocks name indices count =>
    s!"load of '{name}' lost {indices.length} of {count} blocks: {showIndices indices}"
  | fewBlocks name received count => s!"load of '{name}' returned {received} of {count} blocks"
  | closedLink => "connection closed"

end LinkTrouble

namespace Damage

def detail : Damage → String
  | tooManyBlocks name length count limit =>
    s!"'{name}' claims {length} bytes ({count} blocks), more than {limit} blocks per file"
  | lengthWidth name width expected =>
    s!"length of '{name}' is {width} bytes wide, expected {expected}"
  | missingBlocks name length indices =>
    s!"'{name}' ({length} bytes) is missing blocks {showIndices indices}"
  | shortBlock name index size expected =>
    s!"block {index} of '{name}' holds {size} bytes, expected {expected}"

end Damage

namespace Undecodable

def detail : Undecodable → String
  | snappy error => s!"snappy decompress failed: {error.message}"
  | longVarint limit => s!"variable-length integer longer than {limit} bytes"
  | negativeLength length => s!"negative string length {length}"
  | notUtf8 error => s!"string is not UTF-8: {error.message}"

end Undecodable

namespace BadConfig

def detail : BadConfig → String
  | blockSizeZero => "block_size must be > 0"
  | blockSizeTooLarge size limit => s!"block_size {size} exceeds {limit}"
  | syncIntervalZero => "sync_interval must be > 0"
  | emptyKey => "table keys must not be empty"
  | equalKeys key => s!"catalog_key and blocks_key must differ (both '{key}')"
  | noConnections => "max_connections must be > 0"
  | noShards => "sharded backend needs at least one shard"
  | noNodes => "cluster backend needs at least one node"
  | unparsable name raw => s!"{name}: cannot parse '{raw}'"
  | notBoolean name raw => s!"{name}: expected a boolean, got '{raw}'"
  | unreadable path reason => s!"cannot read {path}: {reason}"

end BadConfig

namespace BadArgument

def detail : BadArgument → String
  | tooFewBlocks name length count got =>
    s!"save of '{name}': {length} bytes need {count} blocks, got {got}"
  | blockCount name count got => s!"'{name}' needs {count} blocks, got {got}"
  | emptyName => "file name must not be empty"
  | lockName name => s!"invalid lock name '{name}'"
  | longString size => s!"string of {size} bytes is too long"

end BadArgument

namespace ClosedThing

def detail : ClosedThing → String
  | singleBackend => "single-connection backend"
  | clusterBackend => "cluster backend"
  | pool => "connection pool"
  | poolDuringCheckout => "connection pool closed during checkout"
  | directory operation => s!"{operation}: directory is closed"
  | cursor description => s!"read cursor {description}"

end ClosedThing

namespace Misuse

def detail : Misuse → String
  | zeroBlockSize => "blocks of no bytes"
  | noSuchBlock index count => s!"block {index} of {count}"

end Misuse

namespace Error

/-- The kind of an error. -/
def kind : Error → ErrorKind
  | io _ => .io
  | reported kind _ => kind
  | missing _ => .notFound
  | lockHeld .. => .lockConflict
  | lockInvalid .. => .lockInvalidated
  | outOfView _ => .outOfRange
  | shortView _ => .endOfStream
  | link _ => .transport
  | damaged _ => .inconsistent
  | undecodable _ => .codec
  | unencodable _ => .codec
  | config _ => .config
  | argument _ => .argument
  | checksumDisabled _ => .state
  | closed _ => .closed
  | malformedJson => .serialization
  | misuse _ => .misuse

/-- What an error says after the heading of its kind. -/
def detail : Error → String
  | io error => error.text
  | reported _ text => text
  | missing what => what.detail
  | lockHeld holder path => s!"{holder.detail}: {path}"
  | lockInvalid flaw path => flaw.detail path
  | outOfView what => what.detail
  | shortView what => what.detail
  | link trouble => trouble.detail
  | damaged damage => damage.detail
  | undecodable what => what.detail
  | unencodable size =>
    s!"snappy compress failed: {(Snappy.DecodeError.tooLong size).message}"
  | config what => what.detail
  | argument what => what.detail
  | checksumDisabled name => s!"checksum tracking is disabled for output '{name}'"
  | closed what => what.detail
  | malformedJson => "malformed JSON"
  | misuse what => what.detail

/-- The full text of an error. -/
def message (e : Error) : String := s!"{e.kind.heading}: {e.detail}"

/-- Whether the error stems from the link to a store. -/
def isTransport (e : Error) : Bool := e.kind = .transport

/-- The error as a stream of bytes reports it: a file error as it is, any other with its full text
and the nearest kind. -/
def toIo (e : Error) : IoError :=
  match e with
  | io error => error
  | e =>
    let kind : IoKind := match e.kind with
      | .notFound => .notFound
      | .endOfStream => .unexpectedEnd
      | .outOfRange | .argument => .invalidInput
      | .transport => .connectionAborted
      | _ => .other
    ⟨kind, e.message⟩

end Error

end BlockDir
