import MemoryHierarchy.Dram.Controller
import MemoryHierarchy.Proofs.Run

/-!
What the controller has reserved, and for whom.

`Holds c live` says that the buses and banks of `c` are reserved for the requests of `live` and
for nothing else. Releasing a request takes it out of `live`, starting one appends it
(`drop_holds`, `launch_holds`), and the candidate test against the three reservation lists is
the pairwise conflict test against `live` (`isCandidate_eq`).
-/

namespace MemoryHierarchy.Dram

/-! ## Conflicts -/

theorem Plan.conflicts_comm (p q : Plan) (i j : Nat) : p.conflicts i q j = q.conflicts j p i := by
  rw [Bool.eq_iff_iff]
  simp only [Plan.conflicts, Bool.or_eq_true, Bool.and_eq_true, List.any_eq_true, beq_iff_eq]
  constructor <;>
  · intro hconflict
    rcases hconflict with (⟨a, ha, b, hb, h⟩ | h) | ⟨rfl, h⟩
    · exact .inl (.inl ⟨b, hb, a, ha, (Interval.overlaps_comm b a).trans h⟩)
    · exact .inl (.inr ((Interval.overlaps_comm _ _).trans h))
    · exact .inr ⟨rfl, (Interval.overlaps_comm _ _).trans h⟩

theorem Request.conflictsWith_comm (r s : Request) : r.conflictsWith s = s.conflictsWith r :=
  Plan.conflicts_comm _ _ _ _

/-! ## Reservation lists -/

/-- The command bus slots of a request. -/
def Request.commandSlots (r : Request) : List Reservation :=
  r.plan.commands.map ({ owner := r.id, interval := · })

/-- The data bus slot of a request. -/
def Request.dataSlot (r : Request) : Reservation := { owner := r.id, interval := r.plan.data }

/-- The time for which a request locks its bank. -/
def Request.bankSlot (r : Request) : Reservation := { owner := r.id, interval := r.plan.bank }

/-- The channel that these requests hold. -/
def Channel.heldBy (live : List Request) : Channel :=
  { command := live.flatMap Request.commandSlots, data := live.map Request.dataSlot }

/-- What these requests hold of bank `index`. -/
def bankSlots (index : Nat) (live : List Request) : List Reservation :=
  (live.filter (·.bank == index)).map Request.bankSlot

/-- The requests other than request `id`. -/
def without (id : Nat) (live : List Request) : List Request := live.filter (·.id != id)

theorem mem_without {id : Nat} {live : List Request} {r : Request} :
    r ∈ without id live ↔ r ∈ live ∧ r.id ≠ id := by
  simp [without]

theorem releaseOwner_commandSlots (id : Nat) (live : List Request) :
    releaseOwner (live.flatMap Request.commandSlots) id
      = (without id live).flatMap Request.commandSlots := by
  rw [releaseOwner, without, List.filter_flatMap]
  induction live with
  | nil => rfl
  | cons r rest ih =>
    rw [List.flatMap_cons, ih, List.filter_cons]
    -- All slots of a request go, or none does.
    by_cases h : r.id = id
    · simp [h, Request.commandSlots]
    · have hne : (r.id != id) = true := by simpa using h
      rw [if_pos hne, List.flatMap_cons, List.filter_eq_self.mpr]
      simp [Request.commandSlots, h]

theorem releaseOwner_dataSlots (id : Nat) (live : List Request) :
    releaseOwner (live.map Request.dataSlot) id = (without id live).map Request.dataSlot := by
  rw [releaseOwner, List.filter_map]
  rfl

theorem releaseOwner_bankSlots (id index : Nat) (live : List Request) :
    releaseOwner (bankSlots index live) id = bankSlots index (without id live) := by
  rw [releaseOwner, bankSlots, bankSlots, without, List.filter_map, List.filter_filter,
    List.filter_filter]
  congr 1
  apply List.filter_congr
  intro r _
  exact Bool.and_comm _ _

/-- A request of another bank holds nothing of this one. -/
theorem bankSlots_without {id index : Nat} {live : List Request}
    (h : ∀ r ∈ live, r.id = id → r.bank ≠ index) :
    bankSlots index (without id live) = bankSlots index live := by
  rw [bankSlots, bankSlots, without, List.filter_filter]
  congr 1
  apply List.filter_congr
  intro r hr
  by_cases hb : r.bank = index
  · have hne : r.id ≠ id := fun hid => h r hr hid hb
    simp [hb, hne]
  · simp [hb]

theorem Channel.heldBy_release (id : Nat) (live : List Request) :
    (Channel.heldBy live).release id = Channel.heldBy (without id live) := by
  simp only [Channel.release, Channel.heldBy, releaseOwner_commandSlots, releaseOwner_dataSlots]

theorem Channel.heldBy_reserve (live : List Request) (r : Request) :
    (Channel.heldBy live).reserve r.id r.plan = Channel.heldBy (live ++ [r]) := by
  simp [Channel.reserve, Channel.heldBy, Request.commandSlots, Request.dataSlot]

theorem bankSlots_append (index : Nat) (live : List Request) (r : Request) :
    bankSlots index (live ++ [r])
      = bankSlots index live ++ if r.bank = index then [r.bankSlot] else [] := by
  by_cases h : r.bank = index <;> simp [bankSlots, List.filter_append, h]

/-! ## The candidate test -/

theorem isUnreserved_commandSlots (live : List Request) (slot : Interval) :
    isUnreserved (live.flatMap Request.commandSlots) slot
      = live.all fun r => r.plan.commands.all (!·.overlaps slot) := by
  simp [isUnreserved, Request.commandSlots, List.all_flatMap, Function.comp_def]

theorem Channel.heldBy_isFree (live : List Request) (plan : Plan) :
    (Channel.heldBy live).isFree plan ↔
      ∀ r ∈ live, (∀ a ∈ r.plan.commands, ∀ b ∈ plan.commands, a.overlaps b = false)
        ∧ r.plan.data.overlaps plan.data = false := by
  simp only [Channel.isFree, Channel.heldBy, isUnreserved_commandSlots, Bool.and_eq_true,
    List.all_eq_true, Bool.not_eq_eq_eq_not, Bool.not_true]
  constructor
  · intro hfree r hr
    obtain ⟨hc, hd⟩ := hfree
    refine ⟨fun a ha b hb => hc b hb r hr a ha, ?_⟩
    simpa [Request.dataSlot] using List.all_eq_true.mp hd r.dataSlot (List.mem_map_of_mem hr)
  · intro h
    refine ⟨fun b hb r hr a ha => (h r hr).1 a ha b hb, ?_⟩
    rw [isUnreserved, List.all_eq_true]
    intro s hs
    obtain ⟨r, hr, rfl⟩ := List.mem_map.mp hs
    simpa [Request.dataSlot] using (h r hr).2

theorem bankSlots_isUnreserved (index : Nat) (live : List Request) (slot : Interval) :
    isUnreserved (bankSlots index live) slot ↔
      ∀ r ∈ live, r.bank = index → r.plan.bank.overlaps slot = false := by
  simp [isUnreserved, bankSlots, Request.bankSlot, Decidable.imp_iff_not_or]

theorem Request.conflictsWith_eq_false {r s : Request} :
    r.conflictsWith s = false ↔
      ((∀ a ∈ r.plan.commands, ∀ b ∈ s.plan.commands, a.overlaps b = false)
        ∧ r.plan.data.overlaps s.plan.data = false)
        ∧ (r.bank = s.bank → r.plan.bank.overlaps s.plan.bank = false) := by
  simp [Request.conflictsWith, Plan.conflicts]

namespace Controller

/-- The buses and banks are reserved for these requests and for nothing else. -/
structure Holds (c : Controller) (live : List Request) : Prop where
  channel : c.channel = Channel.heldBy live
  banks : ∀ i b, c.banks[i]? = some b → b.reservations = bankSlots i live

/-- A request is a candidate exactly if it conflicts with none of those that hold something. -/
theorem isCandidate_eq {c : Controller} {live : List Request} (h : c.Holds live) {r : Request}
    (hbank : r.bank < c.banks.size) :
    c.isCandidate r = .ok (live.all fun s => !s.conflictsWith r) := by
  have hb : c.banks[r.bank]? = some c.banks[r.bank] := Array.getElem?_eq_getElem hbank
  have hfree : c.banks[r.bank].isFree r.plan.bank ↔
      ∀ s ∈ live, s.bank = r.bank → s.plan.bank.overlaps r.plan.bank = false := by
    rw [Bank.isFree, h.banks _ _ hb, bankSlots_isUnreserved]
  have hall : (live.all fun s => !s.conflictsWith r) = true ↔
      c.channel.isFree r.plan ∧ c.banks[r.bank].isFree r.plan.bank := by
    rw [h.channel, Channel.heldBy_isFree, hfree, List.all_eq_true]
    simp only [Bool.not_eq_eq_eq_not, Bool.not_true, Request.conflictsWith_eq_false]
    exact ⟨fun h => ⟨fun s hs => (h s hs).1, fun s hs => (h s hs).2⟩,
      fun h s hs => ⟨h.1 s hs, h.2 s hs⟩⟩
  -- The bank is asked only if the channel is free.
  simp only [isCandidate, Controller.bank, hb, inBounds]
  by_cases hc : c.channel.isFree r.plan
  · rw [if_pos hc]
    change Except.ok (c.banks[r.bank].isFree r.plan.bank) = _
    congr 1
    rw [Bool.eq_iff_iff, hall]
    exact ⟨fun hf => ⟨hc, hf⟩, fun hf => hf.2⟩
  · rw [if_neg hc]
    congr 1
    exact (Bool.eq_false_iff.mpr fun ht => hc (hall.mp ht).1).symm

end Controller

end MemoryHierarchy.Dram
