import MemoryHierarchy.Address

/-!
Word-addressed memory.

A memory is a row of words that cover `wordBytes` bytes of address each. A word is read and
written at the address of its first byte; every other address, and every address past the end,
is a fault. `readWords` and `writeWords` walk over consecutive words, find the address of each
from its index and check it, `load` checks the whole range once.
-/

namespace MemoryHierarchy

/-- A memory. Its words are stored as 32 bits, whatever the number of bytes they cover. -/
structure Memory where
  words : Array Word
  wordBytes : Nat
  wordBytes_pos : 0 < wordBytes
  deriving Repr, DecidableEq

namespace Memory

/-- A memory of zeros with as many whole words as `sizeBytes` bytes hold. A word covers at least
one byte. -/
def zeroed (sizeBytes wordBytes : Nat) : Memory where
  words := Array.replicate (sizeBytes / max wordBytes 1) 0
  wordBytes := max wordBytes 1
  wordBytes_pos := by omega

/-- The bytes that the words cover. -/
def sizeBytes (m : Memory) : Nat := m.words.size * m.wordBytes

/-- The position of the word at `address`. -/
def position (m : Memory) (address : Nat) : Except Fault (Fin m.words.size) :=
  if address % m.wordBytes ≠ 0 then .error (.unalignedAddress address)
  else if h : address / m.wordBytes < m.words.size then .ok ⟨address / m.wordBytes, h⟩
  else .error (.outsideMemory address m.sizeBytes)

/-- The word at `address`. -/
def readWord (m : Memory) (address : Nat) : Except Fault Word :=
  return m.words[← m.position address]

/-- Stores a word at `address`. -/
def writeWord (m : Memory) (address : Nat) (word : Word) : Except Fault Memory := do
  let i ← m.position address
  return { m with words := m.words.set i word }

/-- The address of word `i` of a block. The index is cut to 32 bits; neither its product with the
step nor the sum may need more. -/
def wordAddress (step address i : Nat) : Except Fault Nat :=
  if i % addressSpace * step < addressSpace then offsetAddress address (i % addressSpace * step)
  else .error .overflow

/-- Reads `count` words from word `i` of the block at `address` on, behind those read before, which
are given latest first. -/
def readFrom (m : Memory) (step address : Nat) :
    (count i : Nat) → (before : List Word) → Except Fault (List Word)
  | 0, _, before => .ok before.reverse
  | count + 1, i, before => do
    let word ← m.readWord (← wordAddress step address i)
    m.readFrom step address count (i + 1) (word :: before)

/-- Writes words from word `i` of the block at `address` on. -/
def writeFrom (m : Memory) (step address : Nat) : (i : Nat) → List Word → Except Fault Memory
  | _, [] => .ok m
  | i, word :: rest => do
    (← m.writeWord (← wordAddress step address i) word).writeFrom step address (i + 1) rest

/-- Reads `count` words, `step` bytes apart from `address` on. -/
def readWords (m : Memory) (step address count : Nat) : Except Fault (List Word) :=
  m.readFrom step address count 0 []

/-- Writes words `step` bytes apart, from `address` on. -/
def writeWords (m : Memory) (step address : Nat) (words : List Word) : Except Fault Memory :=
  m.writeFrom step address 0 words

/-- Reads `count` consecutive words from `address` on. -/
def readBlock (m : Memory) (address count : Nat) : Except Fault (List Word) :=
  m.readWords m.wordBytes address count

/-- Writes consecutive words from `address` on. -/
def writeBlock (m : Memory) (address : Nat) (words : List Word) : Except Fault Memory :=
  m.writeWords m.wordBytes address words

/-- Puts words in consecutive places from `start` on. -/
def putWords (stored : Array Word) (start : Nat) : List Word → Array Word
  | [] => stored
  | word :: rest => putWords (stored.setIfInBounds start word) (start + 1) rest

/-- Copies words into memory from `address` on; the whole range has to be inside. -/
def load (m : Memory) (address : Nat) (words : List Word) : Except Fault Memory := do
  let start ← m.position address
  if start + words.length ≤ m.words.size then
    return { m with words := putWords m.words start words }
  else .error (.loadExceedsMemory words.length address)

end Memory

end MemoryHierarchy
