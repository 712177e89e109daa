import MemoryHierarchy.Counters
import MemoryHierarchy.Text.Percentage

/-!
The report of a run: four sections of labelled figures. Every label is filled up to column 25.
-/

namespace MemoryHierarchy

/-- The figures of a run that depend on the machine it ran on, as texts. -/
structure HostFigures where
  /-- The time the run took. -/
  seconds : String
  /-- The ticks per time. -/
  frequency : String

namespace Report

/-- A section of the report. -/
inductive Section where
  | summary
  | cache
  | missTracking
  | dram
  deriving Repr, DecidableEq

/-- The name a section is asked for by. -/
def Section.name : Section → String
  | .summary => "summary"
  | .cache => "cache"
  | .missTracking => "mshr"
  | .dram => "dram"

/-- The line around headings. -/
def heavyRule : String := String.ofList (List.replicate 58 '=')

/-- The line below a section. -/
def lightRule : String := String.ofList (List.replicate 58 '-')

/-- A label and its figure. -/
def figure (label value : String) : String :=
  String.ofList (label.toList.rightpad 25 ' ') ++ value

/-- A label and its count. -/
def count (label : String) (n : Nat) : String := figure label (toString n)

/-- Ticks and host figures. -/
def summary (c : Counters) (host : HostFigures) : List String :=
  ["", heavyRule, "MEMORY HIERARCHY SIMULATION STATISTICS", heavyRule,
    figure "host_seconds" host.seconds,
    count "sim_cycles" c.cycles,
    figure "sim_freq" host.frequency,
    lightRule]

/-- A number of accesses and the share of those that hit. -/
def accesses (label : String) (hits total : Nat) : String :=
  figure label (toString total ++ " (hit " ++ Percentage.text hits total ++ ")")

/-- Look-ups and probes. -/
def cache (c : Counters) : Except Fault (List String) := do
  let instruction ← sum64 c.instructionHits c.instructionMisses
  let data ← sum64 c.dataHits c.dataMisses
  let l2 ← sum64 c.l2Hits c.l2Misses
  return ["CACHE HIERARCHY",
    accesses "  l1i.accesses" c.instructionHits instruction,
    accesses "  l1d.accesses" c.dataHits data,
    count "  l1.fills" c.l1Fills,
    accesses "  l2.accesses" c.l2Hits l2,
    count "  l2.writes" c.l2Writes,
    count "  l2.fills" c.l2Fills,
    count "  l2.writebacks" c.l2WriteBacks,
    lightRule]

/-- Outstanding misses. -/
def missTracking (c : Counters) : List String :=
  ["MISS TRACKING",
    count "  mshr.issued" c.missesIssued,
    count "  mshr.merges" c.missesMerged,
    count "  mshr.stalls" c.missesStalled,
    count "  mshr.cancellations" c.cancellations,
    lightRule]

/-- Requests to memory, and messages. -/
def dram (c : Counters) : Except Fault (List String) := do
  let started ← sum64 (← sum64 c.rowHits c.rowMisses) c.rowConflicts
  return ["DRAM",
    count "  dram.requests" c.dramRequests,
    figure "  dram.row_hits"
      (toString c.rowHits ++ " (" ++ Percentage.text c.rowHits started ++ ")"),
    count "  dram.row_misses" c.rowMisses,
    count "  dram.row_conflicts" c.rowConflicts,
    count "  dram.retired" c.dramRetired,
    count "  interconnect.delivered" c.messagesDelivered,
    heavyRule]

/-- The lines of one section. -/
def sectionLines (c : Counters) (host : HostFigures) : Section → Except Fault (List String)
  | .summary => .ok (summary c host)
  | .cache => cache c
  | .missTracking => .ok (missTracking c)
  | .dram => dram c

/-- Whether a section is asked for; all are if no name is given. -/
def isWanted (names : List String) (s : Section) : Bool :=
  names.isEmpty || names.contains s.name

end Report

/-- The report of the sections with the given names, or of all sections if there is no name. A
name of no section asks for nothing. -/
def Counters.report (c : Counters) (host : HostFigures) (names : List String) :
    Except Fault String := do
  let wanted := [.summary, .cache, .missTracking, .dram].filter (Report.isWanted names)
  let lines ← wanted.mapM (Report.sectionLines c host)
  return String.join (lines.flatten.map (· ++ "\n"))

end MemoryHierarchy
