import RasenArchive.Library.Fallible
import RasenArchive.Library.LittleEndian
import RasenArchive.Library.SplitJoin
import RasenArchive.Library.Window
import RasenArchive.Library.Ownership
import RasenArchive.Library.SortedBuckets
import RasenArchive.Library.Pieces
import RasenArchive.Library.Worklist
import RasenArchive.Library.TwoRuns
import RasenArchive.Library.Guarantee
import RasenArchive.Library.Simulation
import RasenArchive.Error
import RasenArchive.Path
import RasenArchive.Dependencies
import RasenArchive.Crypto
import RasenArchive.Reference
import RasenArchive.Format.Header
import RasenArchive.Format.Toc
import RasenArchive.Format.Codec
import RasenArchive.Format.Layout
import RasenArchive.Format.Partition
import RasenArchive.Pack.Options
import RasenArchive.Pack.Destination
import RasenArchive.Pack.Reader
import RasenArchive.Pack.Packer
import RasenArchive.Pack.Image
import RasenArchive.Pack.Writing
import RasenArchive.Pack.Blocks
import RasenArchive.Pack.Turn
import RasenArchive.Pack.Adding
import RasenArchive.Pack.Duplicates
import RasenArchive.Pack.Finish
import RasenArchive.Pack.Run
import RasenArchive.Pack.Serialise
import RasenArchive.Archive.Limits
import RasenArchive.Archive.Source
import RasenArchive.Archive.Index
import RasenArchive.Archive.Open
import RasenArchive.Archive.Lookup
import RasenArchive.Archive.Block
import RasenArchive.Archive.Read
import RasenArchive.Archive.ReadEntry
import RasenArchive.Archive.RangeLength
import RasenArchive.Archive.ReadRange
import RasenArchive.Archive.Access
import RasenArchive.Archive.Verified
import RasenArchive.Archive.File
import RasenArchive.Archive.Filter
import RasenArchive.Archive.Ranges
import RasenArchive.Archive.Contents
import RasenArchive.Archive.Exact
import RasenArchive.Archive.Agreement
import RasenArchive.Archive.Outcome
import RasenArchive.Archive.Verify
import RasenArchive.Archive.TwoSources
import RasenArchive.Archive.Independence
import RasenArchive.Archive.InPlace
import RasenArchive.Archive.Unchanged
import RasenArchive.Archive.UnchangedRange
import RasenArchive.Archive.Failure
import RasenArchive.Pack.Layout
import RasenArchive.Pack.Opening
import RasenArchive.Pack.RoundTrip
import RasenArchive.Pack.Success
import RasenArchive.Pack.Torn
import RasenArchive.Pack.Simulation
import RasenArchive.Cli.Collect
import RasenArchive.Library.Traced
import RasenArchive.Cli.PackDir
import RasenArchive.Cli.Replacement
import RasenArchive.Cli.Enumeration
import RasenArchive.Library.SelfDelimiting
import RasenArchive.Format.Unique
import RasenArchive.Pack.Tampering
import RasenArchive.Ffi.Boundary
import RasenArchive.Ffi.Read
import RasenArchive.Ffi.Outputs
import RasenArchive.Ffi.Delivery
import RasenArchive.Ffi.Pack
import RasenArchive.Ffi.Streams
import RasenArchive.Archive.Kept
import RasenArchive.Archive.SameBytes
import RasenArchive.Ffi.Archive
import RasenArchive.Ffi.SameBytes
import RasenArchive.Ffi.Session
import RasenArchive.Ffi.Release
import RasenArchive.Ffi.PackFile
