import MemoryHierarchy.Text.Hexadecimal

/-!
Requesters: the instruction path and the data path.

Each path has an L1 and a memory of its own, and a block belongs to one path: an instruction
block and a data block at the same address are two blocks. `PerKind` holds one thing for each
path.
-/

namespace MemoryHierarchy

/-- The path a request comes from. -/
inductive Kind where
  /-- Instruction fetches. -/
  | instruction
  /-- Loads and stores. -/
  | data
  deriving Repr, DecidableEq, Inhabited

/-- The letter that stands for a path in texts. -/
def Kind.letter : Kind → String
  | .instruction => "I"
  | .data => "D"

/-- One thing for each path. -/
structure PerKind (α : Type) where
  instruction : α
  data : α
  deriving Repr, DecidableEq, Inhabited

namespace PerKind

variable {α : Type}

/-- The same thing for both paths. -/
def both (a : α) : PerKind α := ⟨a, a⟩

/-- The thing of path `kind`. -/
def get (p : PerKind α) : Kind → α
  | .instruction => p.instruction
  | .data => p.data

/-- Replaces the thing of path `kind`. -/
def set (p : PerKind α) (kind : Kind) (a : α) : PerKind α :=
  match kind with
  | .instruction => { p with instruction := a }
  | .data => { p with data := a }

@[simp] theorem get_both (a : α) (k : Kind) : (both a).get k = a := by
  cases k <;> rfl

@[simp] theorem get_set_self (p : PerKind α) (k : Kind) (a : α) : (p.set k a).get k = a := by
  cases k <;> rfl

theorem get_set_of_ne (p : PerKind α) {j k : Kind} (a : α) (h : j ≠ k) :
    (p.set k a).get j = p.get j := by
  cases j <;> cases k <;> first | rfl | contradiction

/-- What holds of the new thing, and of the other path's thing, holds of both afterwards. -/
theorem forall_get_set {p : PerKind α} {k : Kind} {a : α} {P : Kind → α → Prop} (hself : P k a)
    (hother : ∀ j, j ≠ k → P j (p.get j)) (j : Kind) : P j ((p.set k a).get j) := by
  by_cases hj : j = k
  · rw [hj, get_set_self]
    exact hself
  · rw [get_set_of_ne p a hj]
    exact hother j hj

@[simp] theorem set_set (p : PerKind α) (k : Kind) (a b : α) : (p.set k a).set k b = p.set k b := by
  cases k <;> rfl

@[simp] theorem set_get_self (p : PerKind α) (k : Kind) : p.set k (p.get k) = p := by
  cases k <;> rfl

end PerKind

/-- A block of one path, named by the address of its first byte. -/
structure BlockRef where
  address : Nat
  kind : Kind
  deriving Repr, DecidableEq, Inhabited

theorem BlockRef.eq_of {b b' : BlockRef} (ha : b.address = b'.address) (hk : b.kind = b'.kind) :
    b = b' := by
  cases b
  cases b'
  rw [mk.injEq]
  exact ⟨ha, hk⟩

/-- The letter of the path, a colon and the whole address. -/
def BlockRef.text (b : BlockRef) : String := b.kind.letter ++ ":" ++ Hexadecimal.full b.address

/-- Whether an access found its block. -/
inductive Outcome where
  | hit
  | miss
  deriving Repr, DecidableEq, Inhabited

end MemoryHierarchy
