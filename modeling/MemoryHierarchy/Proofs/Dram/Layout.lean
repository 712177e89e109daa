import Mathlib.Logic.Basic
import MemoryHierarchy.Dram.Plan
import MemoryHierarchy.Proofs.Run

/-!
Where a plan puts its intervals.

The phases of a request follow each other at the distance of one bank lock, and the transfer
follows the last of them. `Plan.layout` writes the intervals down in closed form, and
`Plan.compute_eq` says that planning gives them exactly if the cycles up to `Timing.reach` fit
64 bits, where every duration is positive.
-/

namespace MemoryHierarchy.Dram

/-- How many phases a request needs. -/
def RowStatus.phaseCount (status : RowStatus) : Nat := status.phases.length

namespace Timing

/-- Nothing is held for no time. -/
structure Positive (t : Timing) : Prop where
  command : 1 ≤ t.commandCycles
  bankBusy : 1 ≤ t.bankBusyCycles
  data : 1 ≤ t.dataCycles

/-- How long a request with `k` phases keeps its bank. -/
def lock (t : Timing) (k : Nat) : Nat := k * t.bankBusyCycles

/-- How many cycles after its start a request with `k` phases lets go of everything. -/
def reachOf (t : Timing) (k : Nat) : Nat :=
  max (t.lock (k - 1) + t.commandCycles) (t.lock k + t.dataCycles)

/-- The same for the request of a row buffer. -/
def reach (t : Timing) (status : RowStatus) : Nat := t.reachOf status.phaseCount

/-- The most cycles that any plan reaches ahead. -/
def horizon (t : Timing) : Nat := t.reachOf 3

theorem Positive.horizon_pos {t : Timing} (ht : t.Positive) : 1 ≤ t.horizon := by
  have hcommand := ht.command
  rw [horizon, reachOf]
  omega

/-- How many ticks after its start a request with `k` phases retires. -/
def service (t : Timing) (k : Nat) : Nat := t.lock k + t.dataCycles - 1

/-- The command bus slot of phase `j` of a request that starts at `now`. -/
def slot (t : Timing) (now j : Nat) : Interval :=
  ⟨now + t.lock j, now + t.lock j + t.commandCycles - 1⟩

variable {t : Timing}

theorem lock_succ (t : Timing) (k : Nat) : t.lock (k + 1) = t.lock k + t.bankBusyCycles :=
  Nat.succ_mul _ _

@[simp] theorem lock_zero (t : Timing) : t.lock 0 = 0 := Nat.zero_mul _

theorem lock_mono (t : Timing) {j k : Nat} (h : j ≤ k) : t.lock j ≤ t.lock k :=
  Nat.mul_le_mul_right _ h

theorem service_mono (t : Timing) {j k : Nat} (h : j ≤ k) : t.service j ≤ t.service k :=
  Nat.sub_le_sub_right (Nat.add_le_add_right (t.lock_mono h) _) 1

theorem Positive.service_pos (ht : t.Positive) {k : Nat} (h : 1 ≤ k) : 1 ≤ t.service k := by
  have hlock := t.lock_mono h
  have hone : t.lock 1 = t.bankBusyCycles := Nat.one_mul _
  have hbusy := ht.bankBusy
  have hdata := ht.data
  rw [service]
  omega

theorem reachOf_mono (t : Timing) {j k : Nat} (h : j ≤ k) : t.reachOf j ≤ t.reachOf k := by
  have hlast := t.lock_mono (Nat.sub_le_sub_right h 1)
  have hall := t.lock_mono h
  rw [reachOf, reachOf]
  omega

end Timing

theorem RowStatus.phaseCount_pos (status : RowStatus) : 1 ≤ status.phaseCount := by
  cases status <;> decide

theorem RowStatus.phaseCount_le (status : RowStatus) : status.phaseCount ≤ 3 := by
  cases status <;> decide

theorem Timing.reach_le_horizon (t : Timing) (status : RowStatus) : t.reach status ≤ t.horizon :=
  t.reachOf_mono status.phaseCount_le

namespace Plan

/-- The plan of a request whose first phase starts at `now`: each phase that it needs has the slot
of its turn. -/
def layout (t : Timing) (now : Nat) (status : RowStatus) : Plan where
  precharge? := (status.phases.findIdx? (· = .precharge)).map (t.slot now)
  activate? := (status.phases.findIdx? (· = .activate)).map (t.slot now)
  readWrite := t.slot now (status.phaseCount - 1)
  bank := ⟨now, now + t.lock status.phaseCount - 1⟩
  data := ⟨now + t.lock status.phaseCount, now + t.lock status.phaseCount + t.dataCycles - 1⟩

end Plan

variable {t : Timing} {now : Nat} {status : RowStatus}

theorem Interval.ofLength_eq {length : Nat} (h : 1 ≤ length) (start : Nat) :
    Interval.ofLength start length
      = if start + length < UInt64.size then .ok ⟨start, start + length - 1⟩
        else .error .overflow := by
  by_cases hfits : start + length < UInt64.size
  · rw [if_pos hfits, Interval.ofLength_eq_ok]
    exact ⟨hfits, by omega, rfl⟩
  · rw [if_neg hfits, Interval.ofLength, sum64, if_neg hfits]
    rfl

/-- One phase holds its slot and its bank if the cycles of both fit. -/
theorem PhaseSlots.startingAt_eq (ht : t.Positive) (start : Nat) :
    PhaseSlots.startingAt t start
      = if start + max t.commandCycles t.bankBusyCycles < UInt64.size then
          .ok ⟨⟨start, start + t.commandCycles - 1⟩, ⟨start, start + t.bankBusyCycles - 1⟩⟩
        else .error .overflow := by
  have hcommand := Interval.ofLength_eq ht.command start
  have hlock := Interval.ofLength_eq ht.bankBusy start
  simp only [startingAt, hcommand, hlock, bind, Except.bind, pure, Except.pure]
  grind

namespace Plan

/-- The last phase and the transfer behind it. -/
theorem endingWith_eq (ht : t.Positive) (now start : Nat) (precharge? activate? : Option Interval) :
    (do endingWith t now precharge? activate? (← PhaseSlots.startingAt t start))
      = if start + max t.commandCycles (t.bankBusyCycles + t.dataCycles) < UInt64.size then
          .ok { precharge?, activate?, readWrite := ⟨start, start + t.commandCycles - 1⟩
                bank := ⟨now, start + t.bankBusyCycles - 1⟩
                data := ⟨start + t.bankBusyCycles,
                  start + t.bankBusyCycles + t.dataCycles - 1⟩ }
        else .error .overflow := by
  have hpos := ht.bankBusy
  have hnext : start + t.bankBusyCycles - 1 + 1 = start + t.bankBusyCycles := by omega
  have hdata := Interval.ofLength_eq ht.data (start + t.bankBusyCycles)
  simp only [PhaseSlots.startingAt_eq ht, endingWith, PhaseSlots.next, bind, Except.bind, pure,
    Except.pure]
  by_cases hphase : start + max t.commandCycles t.bankBusyCycles < UInt64.size
  · simp only [if_pos hphase, hnext, hdata]
    grind
  · simp only [if_neg hphase]
    grind

/-- A phase before the last one only delays what follows. -/
theorem phase_eq {α : Type} (ht : t.Positive) (start : Nat)
    (rest : PhaseSlots → Except Fault α) :
    (PhaseSlots.startingAt t start >>= rest)
      = if start + max t.commandCycles t.bankBusyCycles < UInt64.size then
          rest ⟨⟨start, start + t.commandCycles - 1⟩, ⟨start, start + t.bankBusyCycles - 1⟩⟩
        else .error .overflow := by
  rw [PhaseSlots.startingAt_eq ht]
  split <;> rfl

/-- A plan can be made exactly if it ends within 64 bits, and then it is the layout. -/
theorem compute_eq (ht : t.Positive) (now : Nat) (status : RowStatus) :
    compute t now status
      = if now + t.reach status < UInt64.size then .ok (layout t now status)
        else .error .overflow := by
  have hpos := ht.bankBusy
  have hnext : ∀ start, start + t.bankBusyCycles - 1 + 1 = start + t.bankBusyCycles := by
    intro start
    omega
  have hone : t.lock 1 = t.bankBusyCycles := Nat.one_mul _
  have htwo : t.lock 2 = t.bankBusyCycles + t.bankBusyCycles := Nat.two_mul _
  have hthree : t.lock 3 = t.bankBusyCycles + t.bankBusyCycles + t.bankBusyCycles := by
    rw [Timing.lock_succ, htwo]
  cases status with
  | hit =>
    have hreach : t.reach .hit = max t.commandCycles (t.bankBusyCycles + t.dataCycles) := by
      show max (t.lock 0 + _) (t.lock 1 + _) = _
      rw [Timing.lock_zero, hone, Nat.zero_add]
    have hlayout : layout t now .hit = ⟨none, none, t.slot now 0, ⟨now, now + t.lock 1 - 1⟩,
      ⟨now + t.lock 1, now + t.lock 1 + t.dataCycles - 1⟩⟩ := rfl
    rw [compute, endingWith_eq ht, hreach, hlayout, Timing.slot, hone, Timing.lock_zero]
    rfl
  | miss =>
    have hreach : t.reach .miss = t.bankBusyCycles
        + max t.commandCycles (t.bankBusyCycles + t.dataCycles) := by
      show max (t.lock 1 + _) (t.lock 2 + _) = _
      omega
    have hlayout : layout t now .miss = ⟨none, some (t.slot now 0), t.slot now 1,
      ⟨now, now + t.lock 2 - 1⟩, ⟨now + t.lock 2, now + t.lock 2 + t.dataCycles - 1⟩⟩ := rfl
    rw [compute, phase_eq ht, endingWith_eq ht, hreach, hlayout, ← ite_and]
    simp only [PhaseSlots.next, hnext]
    simp only [Timing.slot, hone, htwo, Timing.lock_zero, Nat.add_zero, Nat.add_assoc]
    exact if_congr (by omega) rfl rfl
  | conflict =>
    have hreach : t.reach .conflict = t.bankBusyCycles + (t.bankBusyCycles
        + max t.commandCycles (t.bankBusyCycles + t.dataCycles)) := by
      show max (t.lock 2 + _) (t.lock 3 + _) = _
      omega
    have hlayout : layout t now .conflict = ⟨some (t.slot now 0), some (t.slot now 1),
      t.slot now 2, ⟨now, now + t.lock 3 - 1⟩,
      ⟨now + t.lock 3, now + t.lock 3 + t.dataCycles - 1⟩⟩ := rfl
    rw [compute, phase_eq ht, phase_eq ht, endingWith_eq ht, hreach, hlayout, ← ite_and, ← ite_and]
    simp only [PhaseSlots.next, hnext]
    simp only [Timing.slot, hone, htwo, hthree, Timing.lock_zero, Nat.add_zero, Nat.add_assoc]
    exact if_congr (by omega) rfl rfl

/-- A request retires so many cycles after its start. -/
theorem layout_stop (ht : t.Positive) (now : Nat) (status : RowStatus) :
    (layout t now status).data.stop = now + t.service status.phaseCount := by
  have hdata := ht.data
  show now + t.lock status.phaseCount + t.dataCycles - 1 = _
  rw [Timing.service]
  omega

theorem commands_layout (t : Timing) (now : Nat) (status : RowStatus) :
    (layout t now status).commands = (List.range status.phaseCount).map (t.slot now) := by
  cases status <;> rfl

end Plan

end MemoryHierarchy.Dram
