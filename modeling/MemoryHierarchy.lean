import MemoryHierarchy.Address
import MemoryHierarchy.BlockingCache
import MemoryHierarchy.Config
import MemoryHierarchy.Config.Error
import MemoryHierarchy.Config.Reader
import MemoryHierarchy.Config.Validation
import MemoryHierarchy.Counters
import MemoryHierarchy.Counters.Report
import MemoryHierarchy.Dram.Bank
import MemoryHierarchy.Dram.Channel
import MemoryHierarchy.Dram.Controller
import MemoryHierarchy.Dram.Interval
import MemoryHierarchy.Dram.Plan
import MemoryHierarchy.Fault
import MemoryHierarchy.FirstMatch
import MemoryHierarchy.Geometry
import MemoryHierarchy.Hierarchy
import MemoryHierarchy.Interconnect
import MemoryHierarchy.Json.Number
import MemoryHierarchy.Json.Text
import MemoryHierarchy.Json.Token
import MemoryHierarchy.Json.Value
import MemoryHierarchy.L1
import MemoryHierarchy.L2
import MemoryHierarchy.Line
import MemoryHierarchy.LineStore
import MemoryHierarchy.LineTransfer
import MemoryHierarchy.Memory
import MemoryHierarchy.MissTable
import MemoryHierarchy.Port
import MemoryHierarchy.PowerOfTwo
import MemoryHierarchy.Proofs.Dram.Reservations
import MemoryHierarchy.Proofs.Run
import MemoryHierarchy.Requester
import MemoryHierarchy.Text.Hexadecimal
import MemoryHierarchy.Text.Percentage
import MemoryHierarchy.Proofs.Dram.Steps
import MemoryHierarchy.Proofs.Dram.Exclusion
import MemoryHierarchy.Proofs.Placement
import MemoryHierarchy.Proofs.MemoryRanges
import MemoryHierarchy.Proofs.MemoryWords
import MemoryHierarchy.Proofs.Lines
import MemoryHierarchy.Proofs.Replacement
import MemoryHierarchy.Proofs.Recency
import MemoryHierarchy.Proofs.StampOrder
import MemoryHierarchy.Proofs.Coherence
import MemoryHierarchy.Proofs.L2.Answers
import MemoryHierarchy.Proofs.Blocking.Accesses
import MemoryHierarchy.Proofs.Blocking.Transparency
import MemoryHierarchy.Proofs.Blocking.Contents
import MemoryHierarchy.Proofs.L2.Stores
import MemoryHierarchy.Proofs.Outstanding
import MemoryHierarchy.Proofs.Accepted
import MemoryHierarchy.Proofs.L2.Synchronous
import MemoryHierarchy.Proofs.Hierarchy.Transfers
import MemoryHierarchy.Proofs.Hierarchy.Invariant
import MemoryHierarchy.Proofs.Hierarchy.Actions
import MemoryHierarchy.Proofs.Hierarchy.Misses
import MemoryHierarchy.Proofs.Hierarchy.Stores
import MemoryHierarchy.Proofs.Dram.Layout
import MemoryHierarchy.Proofs.Dram.Progress
import MemoryHierarchy.Proofs.Dram.Selection
import MemoryHierarchy.Proofs.Dram.RowHistory
import MemoryHierarchy.Proofs.Dram.WholeRun
import MemoryHierarchy.Proofs.Dram.Lifecycle
import MemoryHierarchy.Proofs.Hierarchy.Effects
import MemoryHierarchy.Proofs.Hierarchy.Pace
import MemoryHierarchy.Proofs.Hierarchy.Room
import MemoryHierarchy.Proofs.Hierarchy.Draining
import MemoryHierarchy.Proofs.Hierarchy.Latency
import MemoryHierarchy.Proofs.Recency.Caches
import MemoryHierarchy.Proofs.Blocking.Inclusion
import MemoryHierarchy.Proofs.Dram.Replanning
import MemoryHierarchy.Proofs.L2.Withdrawals
import MemoryHierarchy.Proofs.Counting
import MemoryHierarchy.Proofs.L2.DirtyLines
import MemoryHierarchy.Proofs.Hierarchy.Conservation
import MemoryHierarchy.Proofs.Blank
import MemoryHierarchy.Proofs.Hierarchy.Isolation
import MemoryHierarchy.Proofs.Hierarchy.Timing
import MemoryHierarchy.Proofs.Geometry.Decoding
import MemoryHierarchy.Proofs.Geometry.Acceptance
import MemoryHierarchy.Proofs.MissMap
import MemoryHierarchy.Proofs.Dram.Planning
import MemoryHierarchy.Proofs.Dram.Mapping
import MemoryHierarchy.Proofs.MemoryLoads
import MemoryHierarchy.Proofs.Json.Numbers
import MemoryHierarchy.Proofs.Json.Strings
import MemoryHierarchy.Proofs.Json.Values
import MemoryHierarchy.Proofs.Json.Texts
import MemoryHierarchy.Proofs.Config.Records
import MemoryHierarchy.Proofs.Config.Texts
