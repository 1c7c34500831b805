import BlockDir.Error
import BlockDir.Path

/-!
# Configuration

The settings of a directory and of a connection pool. Block size and compression must be the same
for all who share a store; the rest is each client's own business.
-/

namespace BlockDir

/-- The settings of a connection pool. -/
structure PoolConfig where
  maxConnections : Nat
  /-- How long a checkout waits for a connection, in milliseconds. -/
  checkoutTimeout : Nat

namespace PoolConfig

/-- The settings of a pool about which nothing was said. -/
def standard : PoolConfig := ⟨8, 10000⟩

/-- A pool must be able to hold a connection. -/
def validate (c : PoolConfig) : Except Error Unit :=
  if c.maxConnections = 0 then .error (.config .noConnections) else .ok ()

end PoolConfig

/-- The settings of a directory. -/
structure Config where
  blockSize : Nat
  /-- The key of the table of lengths. -/
  catalogKey : String
  /-- The key of the table of blocks. -/
  blocksKey : String
  /-- How long to wait for a connection, in milliseconds. -/
  connectionTimeout : Nat
  lockDir : String
  compress : Bool
  /-- How many commands may be under way in one round trip. -/
  syncInterval : Nat
  checksum : Bool
deriving DecidableEq

namespace Config

/-- The largest block. -/
def maxBlockSize : Nat := 512 * 1024 * 1024

/-- Where lock files go if nothing is said, in a directory for temporary files. -/
def lockDirBelow (temporary : String) : String := Path.join temporary "kvdir-locks"

/-- Where lock files go if nothing is said about temporary files either. -/
def defaultLockDir : String := lockDirBelow "/tmp"

/-- The settings of a directory about which nothing was said. -/
def standard : Config where
  blockSize := 65536
  catalogKey := "directory_metadata"
  blocksKey := "file_data"
  connectionTimeout := 10000
  lockDir := defaultLockDir
  compress := false
  syncInterval := 50
  checksum := true

/-- Small blocks and short waits, with lock files where the caller wants them. -/
def small (lockDir : String) : Config :=
  { standard with blockSize := 1024, syncInterval := 4, connectionTimeout := 1000, lockDir }

/-- Large compressed blocks. -/
def large : Config :=
  { standard with blockSize := 1048576, compress := true, syncInterval := 16 }

/-- The first reason why the settings cannot be used, if there is one. -/
def validate (c : Config) : Except Error Unit :=
  if c.blockSize = 0 then .error (.config .blockSizeZero)
  else if maxBlockSize < c.blockSize then
    .error (.config (.blockSizeTooLarge c.blockSize maxBlockSize))
  else if c.syncInterval = 0 then .error (.config .syncIntervalZero)
  else if c.catalogKey.isEmpty || c.blocksKey.isEmpty then .error (.config .emptyKey)
  else if c.catalogKey = c.blocksKey then .error (.config (.equalKeys c.catalogKey))
  else .ok ()

/-- The settings of a pool that serves the directory. -/
def pool (c : Config) (maxConnections : Nat) : PoolConfig := ⟨maxConnections, c.connectionTimeout⟩

/-- Whether two configurations are equal, however the path of the lock files is written. -/
def same (c d : Config) : Bool := Path.same c.lockDir d.lockDir && { c with lockDir := d.lockDir } = d

/-- What valid settings promise. -/
theorem validate_eq_ok_iff {c : Config} :
    c.validate = .ok () ↔
      0 < c.blockSize ∧ c.blockSize ≤ maxBlockSize ∧ 0 < c.syncInterval ∧
        c.catalogKey ≠ "" ∧ c.blocksKey ≠ "" ∧ c.catalogKey ≠ c.blocksKey := by
  simp only [validate, Bool.or_eq_true, String.isEmpty_iff]
  grind

end Config

end BlockDir
