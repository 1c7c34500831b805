import BlockDir.Bytes
import BlockDir.Bytes.Lemmas
import BlockDir.Word
import BlockDir.Chunks
import BlockDir.Text.Utf8
import BlockDir.Text.Decimal
import BlockDir.Text.Blank
import BlockDir.Crc32
import BlockDir.Varint
import BlockDir.Snappy.Compressor
import BlockDir.Snappy.Decoder
import BlockDir.Store.Command
import BlockDir.Error
import BlockDir.Layout
import BlockDir.Codec
import BlockDir.Checksum.Basic
import BlockDir.Store.Keyspace
import BlockDir.Link.Trace
import BlockDir.Backend.Commit
import BlockDir.Ascending
import BlockDir.Cursor.Datum
import BlockDir.Directory.Consistency
import BlockDir.Lock
import BlockDir.Config.Json
import BlockDir.Config.Environment
import BlockDir.Scenario.Run
import BlockDir.Checksum.Forks
import BlockDir.Proofs.Layout.Keys
import BlockDir.Proofs.Text.Utf8
import BlockDir.Proofs.Layout.Blocks
import BlockDir.Proofs.Layout.Partition
import BlockDir.Proofs.Snappy.Reading
import BlockDir.Proofs.Snappy.Format
import BlockDir.Proofs.Snappy.Compressing
import BlockDir.Proofs.Snappy.RoundTrip
import BlockDir.Proofs.Link.Sending
import BlockDir.Proofs.Store.Tables
import BlockDir.Proofs.Link.Reading
import BlockDir.Proofs.Link.Committing
import BlockDir.Proofs.Backend.Reading
import BlockDir.Proofs.Backend.Service
import BlockDir.Proofs.Backend.Committing
import BlockDir.Proofs.Backend.Mutating
import BlockDir.Proofs.Link.Counting
import BlockDir.Proofs.Backend.Pooling
import BlockDir.Proofs.Backend.Requests
import BlockDir.Proofs.Backend.Courses
import BlockDir.Proofs.Volume.Plans
import BlockDir.Proofs.Directory.Mutations
import BlockDir.Proofs.Volume.Effects
import BlockDir.Proofs.Volume.Loading
import BlockDir.Proofs.Directory.Opening
import BlockDir.Proofs.Directory.Renaming
import BlockDir.Proofs.Cursor.Contents
import BlockDir.Proofs.Volume.Files
import BlockDir.Proofs.Directory.Files
import BlockDir.Proofs.Site.Calls
import BlockDir.Proofs.Site.Files
import BlockDir.Proofs.Site.Consistency
import BlockDir.Proofs.Site.Answering
import BlockDir.Proofs.Site.Refinement
import BlockDir.Proofs.Site.Limits
import BlockDir.Proofs.Site.Naming
import BlockDir.Proofs.Directory.Checking
import BlockDir.Proofs.Site.Passing
import BlockDir.Proofs.Site.Completeness
import BlockDir.Proofs.Directory.Appearing
import BlockDir.Proofs.Directory.Overwriting
import BlockDir.Proofs.Volume.Strays
import BlockDir.Proofs.Site.Settling
import BlockDir.Proofs.Backend.Staging
import BlockDir.Proofs.Directory.Staging
import BlockDir.Proofs.Volume.Blending
import BlockDir.Proofs.Directory.Overlapping
import BlockDir.Proofs.Site.Racing
import BlockDir.Proofs.Site.Tearing
import BlockDir.Proofs.Directory.Reporting
import BlockDir.Proofs.Directory.Trusting
import BlockDir.Proofs.Link.Tracing
import BlockDir.Proofs.Backend.Tracing
import BlockDir.Proofs.Directory.Tracing
import BlockDir.Proofs.Directory.Isolation
import BlockDir.Proofs.Volume.Fetching
import BlockDir.Proofs.Cursor.Views
import BlockDir.Proofs.Backend.Safety
import BlockDir.Proofs.Cursor.Bounds
import BlockDir.Proofs.Directory.Safety
import BlockDir.Proofs.Cursor.Records
import BlockDir.Proofs.Directory.Records
import BlockDir.Proofs.Directory.Sessions
import BlockDir.Proofs.Lock.Exclusion
import BlockDir.Proofs.Lock.Tampering
import BlockDir.Proofs.Volume.Saving
import BlockDir.Proofs.Directory.Vetting
import BlockDir.Proofs.Directory.Refusing
import BlockDir.Proofs.Snappy.Endings
import BlockDir.Proofs.Volume.Truncating
import BlockDir.Proofs.Cursor.Varints
import BlockDir.Proofs.Directory.Accounting
import BlockDir.Proofs.Checksum.Remainder
import BlockDir.Proofs.Checksum.Splitting
import BlockDir.Proofs.Directory.Checksums
import BlockDir.Proofs.Backend.Traffic
import BlockDir.Proofs.Cursor.Closing
import BlockDir.Proofs.Backend.Closing
import BlockDir.Proofs.Json.Writing
import BlockDir.Proofs.Config.RoundTrip
