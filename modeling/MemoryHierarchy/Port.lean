import MemoryHierarchy.Memory

/-!
The port through which caches reach a memory. It keeps a log of every word that passes.
-/

namespace MemoryHierarchy

/-- One word passing through a port. -/
inductive Transfer where
  | read (address : Nat) (word : Word)
  | write (address : Nat) (word : Word)
  deriving Repr, DecidableEq

/-- A memory and the words that caches have moved to and from it. -/
structure Port where
  memory : Memory
  /-- What has passed, latest first. -/
  log : List Transfer
  deriving Repr, DecidableEq

namespace Port

/-- A port through which nothing has passed. -/
def ofMemory (memory : Memory) : Port := { memory, log := [] }

/-- What has passed, in order. -/
def traffic (p : Port) : List Transfer := p.log.reverse

/-- The port with an empty log. -/
def forget (p : Port) : Port := { p with log := [] }

/-- Notes words that passed `step` bytes apart, from `address` on. -/
def note (p : Port) (transfer : Nat → Word → Transfer) (step : Nat) :
    (address : Nat) → List Word → Port
  | _, [] => p
  | address, word :: rest =>
    { p with log := transfer address word :: p.log }.note transfer step (address + step) rest

/-- Reads `count` words, `step` bytes apart from `address` on. -/
def readWords (p : Port) (step address count : Nat) : Except Fault (List Word × Port) := do
  let words ← p.memory.readWords step address count
  return (words, p.note .read step address words)

/-- Writes words `step` bytes apart, from `address` on. -/
def writeWords (p : Port) (step address : Nat) (words : List Word) : Except Fault Port := do
  let memory ← p.memory.writeWords step address words
  return { p with memory }.note .write step address words

end Port

end MemoryHierarchy
