import MemoryHierarchy.Config
import MemoryHierarchy.Geometry
import MemoryHierarchy.Requester

/-!
Which configurations can be built. The checks run in a fixed order and the first that fails is
reported: the shape of each cache, the line sizes, the memory size, the miss table, the
latencies, and last the memory banks. A configuration that passes has the geometries of its
caches as the result.
-/

namespace MemoryHierarchy.Config

/-- The shapes of the caches. -/
structure Geometries where
  l1 : PerKind Geometry
  l2 : Geometry
  deriving Repr, DecidableEq

/-- The shape of a cache whose machine words have so many bits. -/
def CacheSizes.geometry (c : CacheSizes) (wordBits : UInt32) : Except ConfigError Geometry :=
  Geometry.ofSizes? wordBits c.sizeBytes c.ways c.lineBytes

/-- All caches have lines of the same size. -/
def Caches.requireOneLineSize (c : Caches) : Except ConfigError Unit :=
  if c.l1Instruction.lineBytes = c.l2.lineBytes ∧ c.l1Data.lineBytes = c.l2.lineBytes then .ok ()
  else .error (.mismatchedLineSize c.l1Instruction.lineBytes.toNat c.l1Data.lineBytes.toNat
    c.l2.lineBytes.toNat)

/-- The memory holds at least one line and at most all addresses. -/
def General.requireMemorySize (c : General) (lineBytes : Nat) : Except ConfigError Unit := do
  let _ ← requirePowerOfTwo "general.memory_bytes" c.memoryBytes.toNat
  requireRange "general.memory_bytes" c.memoryBytes.toNat lineBytes addressSpace

/-- Every message takes at least one cycle. -/
def Latencies.requirePositive (c : Latencies) : Except ConfigError Unit := do
  requireRange "interconnect.l2_to_l1" c.l2ToL1.toNat 1 (UInt64.size - 1)
  requireRange "interconnect.l2_to_memory" c.l2ToMemory.toNat 1 (UInt64.size - 1)
  requireRange "interconnect.memory_to_l2" c.memoryToL2.toNat 1 (UInt64.size - 1)

/-- The bank bits lie above the line, the row above the bank bits, and every duration is a
positive number of at most 32 bits. -/
def Dram.requireLayout (c : Dram) (offsetBits : Nat) : Except ConfigError Unit := do
  let ⟨bankBits, _⟩ ← requirePowerOfTwo "dram.banks" c.banks.toNat
  let bankTop := offsetBits + bankBits
  if c.rowShift.toNat < bankTop then
    .error (.rowOverlapsBank c.rowShift.toNat bankTop)
  else do
    requireRange "dram.row_shift" c.rowShift.toNat bankTop 31
    requireRange "dram.command_cycles" c.commandCycles.toNat 1 (UInt32.size - 1)
    requireRange "dram.bank_busy_cycles" c.bankBusyCycles.toNat 1 (UInt32.size - 1)
    requireRange "dram.data_cycles" c.dataCycles.toNat 1 (UInt32.size - 1)

/-- Checks a configuration. -/
def validate (c : Config) : Except ConfigError Geometries := do
  let instruction ← c.caches.l1Instruction.geometry c.general.wordBits
  let data ← c.caches.l1Data.geometry c.general.wordBits
  let l2 ← c.caches.l2.geometry c.general.wordBits
  c.caches.requireOneLineSize
  c.general.requireMemorySize l2.lineBytes
  requireRange "mshr.entries" c.missTracking.entries.toNat 1 65536
  c.latencies.requirePositive
  c.dram.requireLayout l2.offsetBits
  return { l1 := { instruction, data }, l2 }

end MemoryHierarchy.Config
