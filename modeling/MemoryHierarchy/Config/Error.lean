import MemoryHierarchy.PowerOfTwo

/-!
Configuration errors: why a configuration is refused before anything is built, and the wording
of each refusal. The two checks that most refusals come from are here as well.
-/

namespace MemoryHierarchy

/-- Why a configuration is refused. -/
inductive ConfigError where
  /-- The text is no JSON text of a configuration. -/
  | malformed
  /-- The file is missing or is not UTF-8 text. -/
  | unreadable
  /-- A size or count that has to be a power of two is none. -/
  | notPowerOfTwo (field : String) (value : Nat)
  /-- The cache is too small to hold one set. -/
  | geometryTooSmall (sizeBytes ways lineBytes : Nat)
  /-- A line is narrower than one machine word. -/
  | lineSmallerThanWord (lineBytes wordBytes : Nat)
  /-- One way covers more address bits than a machine word has. -/
  | wayExceedsAddressSpace (wayBytes wordBits : Nat)
  /-- The caches disagree on the line size. -/
  | mismatchedLineSize (l1Instruction l1Data l2 : Nat)
  /-- A number lies outside its range, both ends included. -/
  | outOfRange (field : String) (value least most : Nat)
  /-- The row field begins below the top of the bank field. -/
  | rowOverlapsBank (rowShift bankTop : Nat)
  deriving Repr, DecidableEq

/-- The wording of a refusal. -/
def ConfigError.message : ConfigError → String
  | malformed => "failed to parse configuration"
  | unreadable => "failed to read configuration"
  | notPowerOfTwo field value => s!"{field} must be a power of two, got {value}"
  | geometryTooSmall sizeBytes ways lineBytes =>
    s!"cache of {sizeBytes} bytes cannot hold {ways} ways of {lineBytes}-byte lines"
  | lineSmallerThanWord lineBytes wordBytes =>
    s!"line of {lineBytes} bytes is smaller than a {wordBytes}-byte word"
  | wayExceedsAddressSpace wayBytes wordBits =>
    s!"way of {wayBytes} bytes exceeds the {wordBits}-bit address space"
  | mismatchedLineSize l1Instruction l1Data l2 =>
    s!"line sizes must match across levels (l1_i={l1Instruction}, l1_d={l1Data}, l2={l2})"
  | outOfRange field value least most =>
    s!"{field} = {value} is out of range [{least}, {most}]"
  | rowOverlapsBank rowShift bankTop =>
    s!"row_shift {rowShift} overlaps the bank bits below bit {bankTop}"

/-- The exponent of a value that has to be a power of two. -/
def requirePowerOfTwo (field : String) (value : Nat) :
    Except ConfigError { k : Nat // value = twoPow k } :=
  match h : exponent? value with
  | some k => .ok ⟨k, exponent?_eq_some_iff.mp h⟩
  | none => .error (.notPowerOfTwo field value)

/-- Refuses a value below `least` or above `most`. -/
def requireRange (field : String) (value least most : Nat) : Except ConfigError Unit :=
  if least ≤ value ∧ value ≤ most then .ok () else .error (.outOfRange field value least most)

end MemoryHierarchy
