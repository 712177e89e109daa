import MemoryHierarchy.Proofs.Dram.Progress
import MemoryHierarchy.Proofs.Geometry.Fields

/-!
When a request can be planned, and what its plan says.

The phases of a request take turns, a bank lock apart (`InTurn`). A plan can be made exactly if its
last command slot and its transfer end within 64 bits, whatever the state of the row buffer. The
same comes out in 64-bit words, where the phases are passed over one after the other and every sum
and every difference on the way needs a result (`Words.mirrors_compute`).
-/

namespace MemoryHierarchy

/-! ## Arithmetic that may have no result -/

/-- The sum, if it fits. -/
def Checked.add64 (a b : UInt64) : Option UInt64 :=
  if a.toNat + b.toNat < UInt64.size then some (a + b) else none

/-- What is computed in words has a result exactly if it has one in natural numbers, and the same
one. -/
def Mirrors {α β : Type} (value : α → β) (x : Option α) (y : Except Fault β) : Prop :=
  x.map value = y.toOption

namespace Mirrors

variable {α β γ δ : Type} {value : α → β} {value' : γ → δ} {x : Option α} {y : Except Fault β}
  {f : α → Option γ} {g : β → Except Fault δ}

theorem bind' (hx : Mirrors value x y)
    (hf : ∀ a, x = some a → Mirrors value' (f a) (g (value a))) :
    Mirrors value' (x >>= f) (y >>= g) := by
  cases x with
  | none =>
    cases y with
    | ok b => cases hx
    | error e => rfl
  | some a =>
    cases y with
    | ok b =>
      obtain rfl : value a = b := Option.some.inj hx
      exact hf a rfl
    | error e => cases hx

theorem add64 (a b : UInt64) :
    Mirrors UInt64.toNat (Checked.add64 a b) (sum64 a.toNat b.toNat) := by
  rw [Mirrors, Checked.add64, sum64]
  split
  · next h =>
    have hsum : (a + b).toNat = a.toNat + b.toNat := by
      rw [UInt64.toNat_add, Nat.mod_eq_of_lt h]
    exact congrArg some hsum
  · rfl

theorem sub64 (a b : UInt64) :
    Mirrors UInt64.toNat (Checked.sub64 a b) (difference a.toNat b.toNat) := by
  rw [Mirrors, Checked.sub64, difference]
  by_cases h : b ≤ a
  · rw [if_pos h, if_pos (UInt64.le_iff_toNat_le.mp h)]
    exact congrArg some (UInt64.toNat_sub_of_le _ _ h)
  · rw [if_neg h, if_neg (mt UInt64.le_iff_toNat_le.mpr h)]
    rfl

end Mirrors

namespace Dram

/-! ## Plans in 64-bit words -/

/-- The cycles from `start` to `stop`, in words. -/
structure Interval.Words where
  start : UInt64
  stop : UInt64
  deriving Repr, DecidableEq

namespace Interval.Words

def value (i : Words) : Interval := ⟨i.start.toNat, i.stop.toNat⟩

/-- The `length` cycles from `start` on. -/
def ofLength (start length : UInt64) : Option Words := do
  return ⟨start, ← Checked.sub64 (← Checked.add64 start length) 1⟩

theorem mirrors_ofLength (start length : UInt64) :
    Mirrors value (ofLength start length) (Interval.ofLength start.toNat length.toNat) := by
  apply (Mirrors.add64 start length).bind'
  intro next _
  apply (Mirrors.sub64 next 1).bind'
  intro stop _
  rfl

end Interval.Words

/-- The durations of a request, in words. -/
structure Timing.Words where
  commandCycles : UInt64
  bankBusyCycles : UInt64
  dataCycles : UInt64
  deriving Repr, DecidableEq

def Timing.Words.value (t : Timing.Words) : Timing :=
  ⟨t.commandCycles.toNat, t.bankBusyCycles.toNat, t.dataCycles.toNat⟩

/-- Everything that one request holds, in words. -/
structure Plan.Words where
  precharge? : Option Interval.Words
  activate? : Option Interval.Words
  readWrite : Interval.Words
  bank : Interval.Words
  data : Interval.Words
  deriving Repr, DecidableEq

namespace Plan.Words

def value (p : Words) : Plan where
  precharge? := p.precharge?.map Interval.Words.value
  activate? := p.activate?.map Interval.Words.value
  readWrite := p.readWrite.value
  bank := p.bank.value
  data := p.data.value

/-- What a pass over the phases has laid out so far. -/
structure Draft where
  precharge? : Option Interval.Words
  activate? : Option Interval.Words
  readWrite : Interval.Words
  /-- The first cycle of the next phase. -/
  start : UInt64
  /-- The last cycle for which the bank is locked. -/
  bankEnd : UInt64
  deriving Repr, DecidableEq

namespace Draft

/-- Gives a phase its slot on the command bus. -/
def assign (d : Draft) (command : Interval.Words) : Phase → Draft
  | .precharge => { d with precharge? := some command }
  | .activate => { d with activate? := some command }
  | .readWrite => { d with readWrite := command }

/-- Lays out one more phase. -/
def lay (t : Timing.Words) (d : Draft) (phase : Phase) : Option Draft := do
  let command ← Interval.Words.ofLength d.start t.commandCycles
  let bankEnd ← Checked.sub64 (← Checked.add64 d.start t.bankBusyCycles) 1
  let start ← Checked.add64 bankEnd 1
  return { d.assign command phase with start, bankEnd }

/-- Lays out the transfer behind the last phase. -/
def finish (t : Timing.Words) (now : UInt64) (d : Draft) : Option Words := do
  let data ← Interval.Words.ofLength (← Checked.add64 d.bankEnd 1) t.dataCycles
  return {
    precharge? := d.precharge?, activate? := d.activate?, readWrite := d.readWrite
    bank := ⟨now, d.bankEnd⟩, data }

end Draft

/-- The plan of a request whose first phase starts at `now`. -/
def compute (t : Timing.Words) (now : UInt64) (status : RowStatus) : Option Words := do
  let readWrite ← Interval.Words.ofLength now t.commandCycles
  let d ← status.phases.foldlM (Draft.lay t)
    { precharge? := none, activate? := none, readWrite, start := now, bankEnd := now }
  d.finish t now

variable {t : Timing.Words} {now : UInt64} {d : Draft} {phase : Phase}

/-- The cycle after a lock is a word: the lock was found by counting back from it. -/
theorem add64_of_sub64 {next bankEnd : UInt64} (h : Checked.sub64 next 1 = some bankEnd) :
    Checked.add64 bankEnd 1 = some next := by
  rw [Checked.sub64] at h
  split at h
  · next hle =>
    obtain rfl := Option.some.inj h
    have hpos : 1 ≤ next.toNat := UInt64.le_iff_toNat_le.mp hle
    have hone : (1 : UInt64).toNat = 1 := rfl
    have hlt : next.toNat < UInt64.size := next.toNat_lt
    rw [Checked.add64, UInt64.toNat_sub_of_le _ _ hle, hone, Nat.sub_add_cancel hpos, if_pos hlt,
      UInt64.sub_add_cancel]
  · cases h

theorem toNat_of_add64 {a b c : UInt64} (h : Checked.add64 a b = some c) :
    c.toNat = a.toNat + b.toNat := by
  rw [Checked.add64] at h
  split at h
  · next hlt =>
    obtain rfl := Option.some.inj h
    rw [UInt64.toNat_add, Nat.mod_eq_of_lt hlt]
  · cases h

/-- One phase more. -/
theorem mirrors_lay {first : Nat} {f : Draft → Option Words}
    {g : PhaseSlots → Except Fault Plan} (hfirst : first = d.start.toNat)
    (h : ∀ command bankEnd start, Checked.add64 bankEnd 1 = some start →
      Mirrors value (f { d.assign command phase with start, bankEnd })
        (g ⟨command.value, ⟨first, bankEnd.toNat⟩⟩)) :
    Mirrors value (d.lay t phase >>= f) (PhaseSlots.startingAt t.value first >>= g) := by
  subst hfirst
  rw [Draft.lay, PhaseSlots.startingAt]
  simp only [bind_assoc, pure_bind]
  apply (Interval.Words.mirrors_ofLength _ _).bind'
  intro command _
  rw [Interval.ofLength]
  simp only [bind_assoc, pure_bind]
  apply (Mirrors.add64 _ _).bind'
  intro next _
  apply (Mirrors.sub64 next 1).bind'
  intro bankEnd hend
  have hnext := add64_of_sub64 hend
  rw [hnext]
  exact h command bankEnd next hnext

/-- The slot that the pass begins with is that of the first phase, which has to fit anyway. -/
theorem mirrors_first {f : Interval.Words → Option Words} {g : PhaseSlots → Except Fault Plan}
    (h : ∀ readWrite, Mirrors value (f readWrite)
      (PhaseSlots.startingAt t.value now.toNat >>= g)) :
    Mirrors value (Interval.Words.ofLength now t.commandCycles >>= f)
      (PhaseSlots.startingAt t.value now.toNat >>= g) := by
  cases hwords : Interval.Words.ofLength now t.commandCycles with
  | some readWrite => exact h readWrite
  | none =>
    have hslot := Interval.Words.mirrors_ofLength now t.commandCycles
    rw [hwords] at hslot
    rw [PhaseSlots.startingAt, bind_assoc]
    -- Without the slot neither side goes on.
    apply hslot.bind' (f := fun _ => none)
    intro _ hnone
    cases hnone

theorem mirrors_finish {last : PhaseSlots} {precharge? activate? : Option Interval}
    (hstart : Checked.add64 d.bankEnd 1 = some d.start)
    (hprecharge : precharge? = d.precharge?.map Interval.Words.value)
    (hactivate : activate? = d.activate?.map Interval.Words.value)
    (hcommand : last.command = d.readWrite.value) (hlock : last.lock.stop = d.bankEnd.toNat) :
    Mirrors value (d.finish t now) (endingWith t.value now.toNat precharge? activate? last) := by
  have hnext : last.next = d.start.toNat := by
    rw [toNat_of_add64 hstart, PhaseSlots.next, hlock]
    rfl
  rw [Draft.finish, hstart, endingWith, hnext]
  apply (Interval.Words.mirrors_ofLength _ _).bind'
  intro data _
  rw [hprecharge, hactivate, hcommand, hlock]
  rfl

/-- Planning in words mirrors planning in natural numbers. -/
theorem mirrors_compute (t : Timing.Words) (now : UInt64) (status : RowStatus) :
    Mirrors value (compute t now status) (Plan.compute t.value now.toNat status) := by
  rw [compute]
  cases status with
  | hit =>
    apply mirrors_first
    intro readWrite
    simp only [RowStatus.phases, List.foldlM_cons, List.foldlM_nil, bind_assoc, pure_bind]
    apply mirrors_lay rfl
    intro command bankEnd start hstart
    exact mirrors_finish hstart rfl rfl rfl rfl
  | miss =>
    apply mirrors_first
    intro readWrite
    simp only [RowStatus.phases, List.foldlM_cons, List.foldlM_nil, bind_assoc, pure_bind]
    apply mirrors_lay rfl
    intro activate bankEnd start hstart
    apply mirrors_lay (toNat_of_add64 hstart).symm
    intro command bankEnd start hstart
    exact mirrors_finish hstart rfl rfl rfl rfl
  | conflict =>
    apply mirrors_first
    intro readWrite
    simp only [RowStatus.phases, List.foldlM_cons, List.foldlM_nil, bind_assoc, pure_bind]
    apply mirrors_lay rfl
    intro precharge bankEnd start hstart
    apply mirrors_lay (toNat_of_add64 hstart).symm
    intro activate bankEnd start hstart
    apply mirrors_lay (toNat_of_add64 hstart).symm
    intro command bankEnd start hstart
    exact mirrors_finish hstart rfl rfl rfl rfl

end Plan.Words

/-! ## The phases take turns -/

namespace Plan

/-- The slot of a phase on the command bus. -/
def command? (p : Plan) : Phase → Option Interval
  | .precharge => p.precharge?
  | .activate => p.activate?
  | .readWrite => some p.readWrite

/-- The plan of a request from cycle `now` on: the phases that it needs, and no others, have their
slots in order, a bank lock apart; the bank is held from the first phase to the end of the last
lock, and the data bus for the transfer behind it. -/
structure InTurn (t : Timing) (now : Nat) (status : RowStatus) (p : Plan) : Prop where
  needed : ∀ j phase, status.phases[j]? = some phase → p.command? phase = some (t.slot now j)
  others : ∀ phase, phase ∉ status.phases → p.command? phase = none
  commands : p.commands = (List.range status.phaseCount).map (t.slot now)
  bank : p.bank = ⟨now, now + t.lock status.phaseCount - 1⟩
  data : p.data = ⟨now + t.lock status.phaseCount,
    now + t.lock status.phaseCount + t.dataCycles - 1⟩

theorem layout_inTurn (t : Timing) (now : Nat) (status : RowStatus) :
    (layout t now status).InTurn t now status where
  needed := by
    intro j phase hphase
    cases status with
    | hit =>
      match j, hphase with
      | 0, h => obtain rfl := Option.some.inj h; rfl
    | miss =>
      match j, hphase with
      | 0, h => obtain rfl := Option.some.inj h; rfl
      | 1, h => obtain rfl := Option.some.inj h; rfl
    | conflict =>
      match j, hphase with
      | 0, h => obtain rfl := Option.some.inj h; rfl
      | 1, h => obtain rfl := Option.some.inj h; rfl
      | 2, h => obtain rfl := Option.some.inj h; rfl
  others := by
    intro phase hphase
    have hnone : (status.phases.findIdx? (· = phase)).map (t.slot now) = none := by
      rw [Option.map_eq_none_iff, List.findIdx?_eq_none_iff]
      exact fun other hother => decide_eq_false fun heq => hphase (heq ▸ hother)
    cases phase with
    | precharge => exact hnone
    | activate => exact hnone
    | readWrite => exact absurd (by cases status <;> decide) hphase
  commands := commands_layout t now status
  bank := rfl
  data := rfl

/-! ## Planning -/

/-- A plan ends where its last command slot or its transfer does. -/
theorem reach_lt_iff (t : Timing) (now : Nat) (status : RowStatus) (bound : Nat) :
    now + t.reach status < bound
      ↔ now + t.lock (status.phaseCount - 1) + t.commandCycles < bound
        ∧ now + t.lock status.phaseCount + t.dataCycles < bound := by
  rw [Timing.reach, Timing.reachOf]
  omega

/-- **Planning.** A request of `k` phases can be planned exactly if the command slot of its last
phase, which starts `k - 1` bank locks from now, and the transfer after `k` of them end within 64
bits; then its phases take turns. Planning in words has a result exactly then too, and the same one.
The durations of a configuration that passes its checks can be planned up to the last
`4 * (UInt32.size - 1)` cycles. -/
theorem exact_turns {t : Timing} (ht : t.Positive) (now : Nat) (status : RowStatus) :
    ((∃ p, compute t now status = .ok p)
        ↔ now + t.lock (status.phaseCount - 1) + t.commandCycles < UInt64.size
          ∧ now + t.lock status.phaseCount + t.dataCycles < UInt64.size)
      ∧ (∀ p, compute t now status = .ok p → p.InTurn t now status)
      ∧ (∀ (w : Timing.Words) (cycle : UInt64), (Words.compute w cycle status).map Words.value
          = (compute w.value cycle.toNat status).toOption)
      ∧ ∀ (config : Config.Dram) (offsetBits lineBytes cycle : Nat),
        config.requireLayout offsetBits = .ok () →
        cycle ≤ UInt64.size - 1 - 4 * (UInt32.size - 1) →
        ∃ p, compute (Controller.idle config lineBytes).timing cycle status = .ok p := by
  rw [compute_eq ht, ← reach_lt_iff]
  refine ⟨?_, ?_, fun w cycle => Words.mirrors_compute w cycle status, ?_⟩
  · by_cases hfits : now + t.reach status < UInt64.size
    · rw [if_pos hfits]
      exact iff_of_true ⟨_, rfl⟩ hfits
    · rw [if_neg hfits]
      exact iff_of_false (fun ⟨_, h⟩ => nomatch h) hfits
  · intro p hp
    split at hp
    · obtain rfl := Except.ok.inj hp
      exact layout_inTurn t now status
    · cases hp
  · intro config offsetBits lineBytes cycle hconfig hcycle
    have hlaid := Config.Dram.requireLayout_ok hconfig
    have hreach := Controller.idle_reach_le hlaid lineBytes
    have hpositive : (Controller.idle config lineBytes).timing.Positive :=
      ⟨hlaid.command.1, hlaid.bankBusy.1, hlaid.data.1⟩
    have hsize : 4 * (UInt32.size - 1) < UInt64.size := by decide
    exact ⟨_, Controller.compute_total hpositive (by omega) status⟩

/-- A request that needs all phases, planned for the last cycle for which that is possible: one
cycle later the transfer still fits, and the command slot of the last phase does not. -/
theorem exact_turns_last_cycle :
    Timing.Positive ⟨200, 100, 50⟩
      ∧ (∃ p, compute ⟨200, 100, 50⟩ (UInt64.size - 401) .conflict = .ok p
        ∧ p.data.stop = UInt64.size - 52
        ∧ p.InTurn ⟨200, 100, 50⟩ (UInt64.size - 401) .conflict)
      ∧ ¬∃ p, compute ⟨200, 100, 50⟩ (UInt64.size - 400) .conflict = .ok p := by
  have hpositive : Timing.Positive ⟨200, 100, 50⟩ := ⟨by decide, by decide, by decide⟩
  obtain ⟨hfits, hturns, -, -⟩ := exact_turns hpositive (UInt64.size - 401) .conflict
  obtain ⟨hlater, -, -, -⟩ := exact_turns hpositive (UInt64.size - 400) .conflict
  obtain ⟨p, hp⟩ := hfits.mpr (by decide)
  have hturn := hturns p hp
  exact ⟨hpositive, ⟨p, hp, by rw [hturn.data]; rfl, hturn⟩, mt hlater.mp (by decide)⟩

end Plan

end Dram

end MemoryHierarchy
