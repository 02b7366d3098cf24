import CompactStore.BloomFilter
import CompactStore.Bytes
import CompactStore.Command.Basic
import CompactStore.Command.Name
import CompactStore.Command.Run
import CompactStore.Config
import CompactStore.CountMinSketch
import CompactStore.Cuckoo
import CompactStore.Decimal.Float
import CompactStore.Decimal.Integer
import CompactStore.Error
import CompactStore.Hash
import CompactStore.Listpack.Basic
import CompactStore.Listpack.Edit
import CompactStore.Listpack.Entry
import CompactStore.Log
import CompactStore.Proofs.Bloom.Cardinality
import CompactStore.Proofs.Bloom.Growth
import CompactStore.Proofs.Bloom.Positions
import CompactStore.Proofs.Bounds.Bloom
import CompactStore.Proofs.Bounds.Bucket
import CompactStore.Proofs.Bounds.Checked
import CompactStore.Proofs.Bounds.Cuckoo
import CompactStore.Proofs.Bounds.Listpack
import CompactStore.Proofs.Bounds.Quicklist
import CompactStore.Proofs.Bounds.Runs
import CompactStore.Proofs.Bounds.Sketch
import CompactStore.Proofs.Bounds.Slices
import CompactStore.Proofs.Bounds.Stepping
import CompactStore.Proofs.Bounds.Store
import CompactStore.Proofs.Command.Names
import CompactStore.Proofs.Command.Routing
import CompactStore.Proofs.Config.Parameters
import CompactStore.Proofs.Config.Reached
import CompactStore.Proofs.Config.RoundTrip
import CompactStore.Proofs.Cuckoo.Additions
import CompactStore.Proofs.Cuckoo.Cells
import CompactStore.Proofs.Cuckoo.Census
import CompactStore.Proofs.Cuckoo.Conservation
import CompactStore.Proofs.Cuckoo.Eviction
import CompactStore.Proofs.Cuckoo.Membership
import CompactStore.Proofs.Cuckoo.Occupancy
import CompactStore.Proofs.Cuckoo.Packing
import CompactStore.Proofs.Cuckoo.Pairs
import CompactStore.Proofs.Decimal.Canonical
import CompactStore.Proofs.Deque
import CompactStore.Proofs.Listpack.Backlen
import CompactStore.Proofs.Listpack.Blocks
import CompactStore.Proofs.Listpack.Canonical
import CompactStore.Proofs.Listpack.Context
import CompactStore.Proofs.Listpack.Edit
import CompactStore.Proofs.Listpack.Entry
import CompactStore.Proofs.Listpack.Format
import CompactStore.Proofs.Listpack.History
import CompactStore.Proofs.Listpack.Integers
import CompactStore.Proofs.Listpack.Positions
import CompactStore.Proofs.Listpack.Reading
import CompactStore.Proofs.Listpack.Reloading
import CompactStore.Proofs.Listpack.Shortest
import CompactStore.Proofs.Listpack.Tiling
import CompactStore.Proofs.Listpack.TrailingLength
import CompactStore.Proofs.Listpack.Traversal
import CompactStore.Proofs.Quicklist.Arena
import CompactStore.Proofs.Quicklist.Chain
import CompactStore.Proofs.Quicklist.Contents
import CompactStore.Proofs.Quicklist.Counts
import CompactStore.Proofs.Quicklist.Edit
import CompactStore.Proofs.Quicklist.Oversized
import CompactStore.Proofs.Quicklist.Peak
import CompactStore.Proofs.Quicklist.Sizes
import CompactStore.Proofs.Sketch.Interference
import CompactStore.Proofs.Sketch.Tallies
import CompactStore.Proofs.Sketch.Totals
import CompactStore.Proofs.Steps
import CompactStore.Proofs.Store.Batches
import CompactStore.Proofs.Store.BloomItems
import CompactStore.Proofs.Store.CuckooItems
import CompactStore.Proofs.Store.DefaultFilters
import CompactStore.Proofs.Store.Deletion
import CompactStore.Proofs.Store.Emptied
import CompactStore.Proofs.Store.Families
import CompactStore.Proofs.Store.History
import CompactStore.Proofs.Store.Independence
import CompactStore.Proofs.Store.Invariants
import CompactStore.Proofs.Store.ListCommands
import CompactStore.Proofs.Store.Logging
import CompactStore.Proofs.Store.Refusals
import CompactStore.Proofs.Store.Reports
import CompactStore.Proofs.Store.Sequences
import CompactStore.Proofs.Store.SketchCounts
import CompactStore.Proofs.Store.Types
import CompactStore.Quicklist.Basic
import CompactStore.Quicklist.Edit
import CompactStore.Store.Basic
import CompactStore.Store.Operations
