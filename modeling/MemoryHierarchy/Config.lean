import MemoryHierarchy.Config.Error

/-!
The configuration of a hierarchy: its sections, their fields with the widths they are stored
in, and the value of every field that is not given.
-/

namespace MemoryHierarchy

namespace Config

/-- The width of a machine word, and the size of the memory of each path. -/
structure General where
  wordBits : UInt32 := 32
  memoryBytes : UInt64 := 1048576
  deriving Repr, DecidableEq

/-- The sizes of one cache. The line size alone can be left out. -/
structure CacheSizes where
  sizeBytes : UInt32
  ways : UInt32
  lineBytes : UInt32 := 32
  deriving Repr, DecidableEq

/-- The sizes of every cache. -/
structure Caches where
  l1Instruction : CacheSizes := { sizeBytes := 8192, ways := 4 }
  l1Data : CacheSizes := { sizeBytes := 65536, ways := 8 }
  l2 : CacheSizes := { sizeBytes := 262144, ways := 16 }
  deriving Repr, DecidableEq

/-- How many misses the L2 can have outstanding. -/
structure MissTracking where
  entries : UInt64 := 16
  deriving Repr, DecidableEq

/-- The cycles a message takes on each route. -/
structure Latencies where
  l2ToL1 : UInt64 := 15
  l2ToMemory : UInt64 := 5
  memoryToL2 : UInt64 := 5
  deriving Repr, DecidableEq

/-- The banks of the memory, the lowest bit of the row, and how long each phase of a request
holds the command bus, its bank and the data bus. -/
structure Dram where
  banks : UInt32 := 8
  rowShift : UInt32 := 16
  commandCycles : UInt64 := 4
  bankBusyCycles : UInt64 := 100
  dataCycles : UInt64 := 50
  deriving Repr, DecidableEq

/-- The cycles a miss of the blocking cache costs. -/
structure Blocking where
  missPenalty : UInt64 := 50
  deriving Repr, DecidableEq

end Config

/-- The configuration of a hierarchy. -/
structure Config where
  general : Config.General := {}
  caches : Config.Caches := {}
  missTracking : Config.MissTracking := {}
  latencies : Config.Latencies := {}
  dram : Config.Dram := {}
  blocking : Config.Blocking := {}
  deriving Repr, DecidableEq

/-- The whole bytes of a machine word. -/
def Config.wordBytes (c : Config) : Nat := c.general.wordBits.toNat / 8

end MemoryHierarchy
