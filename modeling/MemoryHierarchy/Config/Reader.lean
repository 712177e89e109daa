import MemoryHierarchy.Config
import MemoryHierarchy.Json.Value

/-!
Configurations as JSON texts.

The root, every section and the sizes of a cache are records. A record is an object, in which
known names occur at most once and unknown names are passed over, or an array of its fields in
their order, which may end early. A field that is not given takes its default; only `size_bytes`
and `ways` of a cache have none. A number is written plainly and fits its field.
-/

namespace MemoryHierarchy

namespace Json

/-- The fields of a record: what was given for each known name. -/
abbrev Record := List (String × Json)

/-- A value as a record with these field names. -/
def record? (names : List String) : Json → Option Record
  | .array items => if items.length ≤ names.length then some (names.zip items) else none
  | .object fields => do
    let fields ← fields.mapM fun (name?, value) => name?.map (·, value)
    let known := fields.filter (names.contains ·.1)
    if (known.map (·.1)).Nodup then some known else none
  | _ => none

/-- A field of a record, or its default if it is not given. -/
def Record.field? {α : Type} (r : Record) (name : String) (read : Json → Option α)
    (default? : Option α) : Option α :=
  match r.lookup name with
  | some value => read value
  | none => default?

/-- A natural number below `bound`. -/
def below? (bound : Nat) : Json → Option Nat
  | .number (some n) => if n < bound then some n else none
  | _ => none

/-- A number of 32 bits. -/
def word32? (j : Json) : Option UInt32 := (j.below? UInt32.size).map Nat.toUInt32

/-- A number of 64 bits. -/
def word64? (j : Json) : Option UInt64 := (j.below? UInt64.size).map Nat.toUInt64

end Json

namespace Config

/-- The section of word width and memory size. -/
def General.ofJson? (j : Json) : Option General := do
  let r ← j.record? ["word_bits", "memory_bytes"]
  let default : General := {}
  return {
    wordBits := ← r.field? "word_bits" Json.word32? default.wordBits
    memoryBytes := ← r.field? "memory_bytes" Json.word64? default.memoryBytes }

/-- The sizes of one cache. -/
def CacheSizes.ofJson? (j : Json) : Option CacheSizes := do
  let r ← j.record? ["size_bytes", "ways", "line_bytes"]
  let sizeBytes ← r.field? "size_bytes" Json.word32? none
  let ways ← r.field? "ways" Json.word32? none
  let default : CacheSizes := { sizeBytes, ways }
  return { default with
    lineBytes := ← r.field? "line_bytes" Json.word32? default.lineBytes }

/-- The section of the caches. -/
def Caches.ofJson? (j : Json) : Option Caches := do
  let r ← j.record? ["l1_i", "l1_d", "l2"]
  let default : Caches := {}
  return {
    l1Instruction := ← r.field? "l1_i" CacheSizes.ofJson? default.l1Instruction
    l1Data := ← r.field? "l1_d" CacheSizes.ofJson? default.l1Data
    l2 := ← r.field? "l2" CacheSizes.ofJson? default.l2 }

/-- The section of the miss table. -/
def MissTracking.ofJson? (j : Json) : Option MissTracking := do
  let r ← j.record? ["entries"]
  let default : MissTracking := {}
  return { entries := ← r.field? "entries" Json.word64? default.entries }

/-- The section of the interconnect. -/
def Latencies.ofJson? (j : Json) : Option Latencies := do
  let r ← j.record? ["l2_to_l1", "l2_to_memory", "memory_to_l2"]
  let default : Latencies := {}
  return {
    l2ToL1 := ← r.field? "l2_to_l1" Json.word64? default.l2ToL1
    l2ToMemory := ← r.field? "l2_to_memory" Json.word64? default.l2ToMemory
    memoryToL2 := ← r.field? "memory_to_l2" Json.word64? default.memoryToL2 }

/-- The section of the memory banks. -/
def Dram.ofJson? (j : Json) : Option Dram := do
  let r ← j.record? ["banks", "row_shift", "command_cycles", "bank_busy_cycles", "data_cycles"]
  let default : Dram := {}
  return {
    banks := ← r.field? "banks" Json.word32? default.banks
    rowShift := ← r.field? "row_shift" Json.word32? default.rowShift
    commandCycles := ← r.field? "command_cycles" Json.word64? default.commandCycles
    bankBusyCycles := ← r.field? "bank_busy_cycles" Json.word64? default.bankBusyCycles
    dataCycles := ← r.field? "data_cycles" Json.word64? default.dataCycles }

/-- The section of the blocking cache. -/
def Blocking.ofJson? (j : Json) : Option Blocking := do
  let r ← j.record? ["miss_penalty"]
  let default : Blocking := {}
  return { missPenalty := ← r.field? "miss_penalty" Json.word64? default.missPenalty }

/-- The whole configuration. -/
def ofJson? (j : Json) : Option Config := do
  let r ← j.record? ["general", "cache", "mshr", "interconnect", "dram", "blocking"]
  let default : Config := {}
  return {
    general := ← r.field? "general" General.ofJson? default.general
    caches := ← r.field? "cache" Caches.ofJson? default.caches
    missTracking := ← r.field? "mshr" MissTracking.ofJson? default.missTracking
    latencies := ← r.field? "interconnect" Latencies.ofJson? default.latencies
    dram := ← r.field? "dram" Dram.ofJson? default.dram
    blocking := ← r.field? "blocking" Blocking.ofJson? default.blocking }

/-- The configuration that a text holds; it need not be one that can be built. -/
def ofText (text : String) : Except ConfigError Config :=
  match Json.parse? text >>= ofJson? with
  | some c => .ok c
  | none => .error .malformed

/-- The configuration that a file holds; a missing file has no bytes. -/
def ofBytes? (bytes? : Option ByteArray) : Except ConfigError Config :=
  match bytes? >>= String.fromUTF8? with
  | some text => ofText text
  | none => .error .unreadable

end Config

end MemoryHierarchy
