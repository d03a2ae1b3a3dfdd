import TypedHeap.Bounds
import TypedHeap.Bounds.Json
import TypedHeap.Cache.Chain
import TypedHeap.Cache.Tag
import TypedHeap.Config
import TypedHeap.Config.Environment
import TypedHeap.Config.Json
import TypedHeap.Decimal.Binary
import TypedHeap.Declaration
import TypedHeap.Declaration.Json
import TypedHeap.Guard.Allocation
import TypedHeap.Guard.Basic
import TypedHeap.Guard.Bytes
import TypedHeap.Guard.Check
import TypedHeap.Guard.Copy
import TypedHeap.Guard.Describe
import TypedHeap.Guard.Free
import TypedHeap.Guard.Reallocation
import TypedHeap.Heap.Basic
import TypedHeap.Heap.Header
import TypedHeap.Heap.Overlay
import TypedHeap.Heap.Region
import TypedHeap.Hex
import TypedHeap.Interface.Calls
import TypedHeap.Interface.Startup
import TypedHeap.Json.Fields
import TypedHeap.Json.Reader
import TypedHeap.Json.Value
import TypedHeap.Json.Writer
import TypedHeap.LargeHeap
import TypedHeap.Layout.Entry
import TypedHeap.Layout.Table
import TypedHeap.Memory
import TypedHeap.Memory.Bytes
import TypedHeap.Memory.Extent
import TypedHeap.Memory.Tile
import TypedHeap.Pointer
import TypedHeap.Proofs.Access
import TypedHeap.Proofs.Account
import TypedHeap.Proofs.Agreement
import TypedHeap.Proofs.Checks
import TypedHeap.Proofs.ClassTable
import TypedHeap.Proofs.Contents
import TypedHeap.Proofs.Custody
import TypedHeap.Proofs.Division
import TypedHeap.Proofs.Exposure
import TypedHeap.Proofs.Flexible
import TypedHeap.Proofs.Histories
import TypedHeap.Proofs.Layouts
import TypedHeap.Proofs.Moves
import TypedHeap.Proofs.Operations
import TypedHeap.Proofs.Ownership
import TypedHeap.Proofs.Placement
import TypedHeap.Proofs.Probing
import TypedHeap.Proofs.RawAccess
import TypedHeap.Proofs.Records
import TypedHeap.Proofs.Registration
import TypedHeap.Proofs.Releases
import TypedHeap.Proofs.Resizing
import TypedHeap.Proofs.Resolution
import TypedHeap.Proofs.Room
import TypedHeap.Proofs.Runs
import TypedHeap.Proofs.Staleness
import TypedHeap.Proofs.SubObjects
import TypedHeap.Proofs.Success
import TypedHeap.Proofs.Supply
import TypedHeap.Proofs.Transparency
import TypedHeap.Proofs.Window
import TypedHeap.Queue
import TypedHeap.Reciprocal
import TypedHeap.Reference
import TypedHeap.Registry
import TypedHeap.Registry.Catalog
import TypedHeap.Report.Counter
import TypedHeap.Report.Journal
import TypedHeap.Report.Violation
import TypedHeap.Reservation
import TypedHeap.Shape
import TypedHeap.Shape.Path
import TypedHeap.SizeClass
import TypedHeap.Text.Blank
import TypedHeap.TypeHash
import TypedHeap.TypeHash.Text
import TypedHeap.TypeRecord
import TypedHeap.Word
import TypedHeap.Proofs.Separation
import TypedHeap.Proofs.Repetition
import TypedHeap.Proofs.Reordering
import TypedHeap.Proofs.Switches
import TypedHeap.Proofs.Resolver
import TypedHeap.Proofs.Copying
import TypedHeap.Proofs.Integrity
import TypedHeap.Proofs.Nesting
import TypedHeap.Proofs.Folding
import TypedHeap.Proofs.Fitting
import TypedHeap.Proofs.Paths
import TypedHeap.Proofs.Exhaustion
import TypedHeap.Proofs.Progression
import TypedHeap.Proofs.LargeFrees
import TypedHeap.Proofs.Descriptions
import TypedHeap.Proofs.Granules
import TypedHeap.Proofs.Reserving
import TypedHeap.Proofs.Overfull
import TypedHeap.Proofs.Courses
import TypedHeap.Proofs.Opening
import TypedHeap.Proofs.Spellings
