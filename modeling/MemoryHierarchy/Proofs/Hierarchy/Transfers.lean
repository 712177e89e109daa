import MemoryHierarchy.Hierarchy
import MemoryHierarchy.Proofs.Dram.Exclusion
import MemoryHierarchy.Proofs.Interconnect.Delivery

/-!
The blocks on their way below the L2.

`transfers` lists them place by place: in messages to memory, in requests that wait, in requests
under way, in messages from memory. `inTransit` is the same up to order (`transfers_perm`) and
easier to follow through a tick: `carried` lists the blocks of all messages that are not for
an L1, and no tick of the interconnect loses one (`carried_tick`). `messagesOn` counts the messages
of each route.
-/

namespace MemoryHierarchy

/-- Whether a message runs between L2 and memory. -/
def Message.isTransfer (m : Message) : Bool := m.route != .l2ToL1

/-- The blocks that messages carry between L2 and memory. -/
def carried (messages : List Message) : List BlockRef :=
  (messages.filter Message.isTransfer).map (·.block)

theorem carried_append (l₁ l₂ : List Message) : carried (l₁ ++ l₂) = carried l₁ ++ carried l₂ := by
  rw [carried, List.filter_append, List.map_append]
  rfl

theorem carried_cons (m : Message) (l : List Message) :
    carried (m :: l) = if m.isTransfer then m.block :: carried l else carried l := by
  rw [carried, List.filter_cons]
  split <;> rfl

theorem carried_countDown (l : List Message) : carried (l.map Message.countDown) = carried l := by
  rw [carried, carried, List.filter_map, List.map_map]
  rfl

/-- The number of messages on a route. -/
def messagesOn (route : Route) (messages : List Message) : Nat :=
  messages.countP (·.route == route)

theorem messagesOn_cons (route : Route) (m : Message) (rest : List Message) :
    messagesOn route (m :: rest) = messagesOn route rest + if m.route = route then 1 else 0 := by
  simp [messagesOn, List.countP_cons]

theorem messagesOn_append (route : Route) (l₁ l₂ : List Message) :
    messagesOn route (l₁ ++ l₂) = messagesOn route l₁ + messagesOn route l₂ :=
  List.countP_append

/-- Every message is on one of three routes. -/
theorem length_eq_messagesOn (messages : List Message) :
    messages.length = messagesOn .l2ToL1 messages + messagesOn .l2ToMemory messages
      + messagesOn .memoryToL2 messages := by
  induction messages with
  | nil => rfl
  | cons m rest ih =>
    rw [List.length_cons, ih, messagesOn_cons, messagesOn_cons, messagesOn_cons]
    cases m.route <;> simp only [reduceCtorEq, if_true, if_false] <;> omega

namespace Interconnect

/-- The blocks on one route. -/
def blocksOn (ic : Interconnect) (route : Route) : List BlockRef :=
  (ic.messages.filter (·.route == route)).map (·.block)

theorem carried_sendOn (ic : Interconnect) (route : Route) (h : route ≠ .l2ToL1) (b : BlockRef) :
    carried (ic.sendOn b route).messages = carried ic.messages ++ [b] := by
  have htransfer : (Message.mk b (ic.latency route - 1) route).isTransfer = true := bne_iff_ne.mpr h
  rw [sendOn, send, carried_append, carried_cons, if_pos htransfer]
  rfl

theorem carried_announce (ic : Interconnect) (b : BlockRef) :
    carried (ic.sendOn b .l2ToL1).messages = carried ic.messages := by
  rw [sendOn, send, carried_append]
  exact List.append_nil _

theorem mem_tick_waiting {ic : Interconnect} {m : Message} :
    m ∈ ic.tick.2.messages ↔ ∃ m₀ ∈ ic.messages, m₀.remaining ≠ 0 ∧ m₀.countDown = m := by
  simp [tick_waiting, Message.isDue, and_assoc]

theorem mem_sendOn {ic : Interconnect} {b : BlockRef} {route : Route} {m : Message} :
    m ∈ (ic.sendOn b route).messages ↔ m ∈ ic.messages ∨ m = ⟨b, ic.latency route - 1, route⟩ := by
  simp [sendOn, send]

/-- A tick delivers some messages and keeps all others. -/
theorem carried_tick (ic : Interconnect) :
    (carried ic.tick.1 ++ carried ic.tick.2.messages).Perm (carried ic.messages) := by
  rw [tick_due, tick_waiting, carried_countDown, ← carried_append]
  exact ((List.filter_append_perm Message.isDue ic.messages).filter _).map _

theorem length_blocksOn (ic : Interconnect) (route : Route) :
    (ic.blocksOn route).length = messagesOn route ic.messages := by
  rw [blocksOn, List.length_map, messagesOn, List.countP_eq_length_filter]

theorem messagesOn_sendOn (ic : Interconnect) (b : BlockRef) (sent route : Route) :
    messagesOn route (ic.sendOn b sent).messages
      = messagesOn route ic.messages + if sent = route then 1 else 0 := by
  rw [sendOn, send, messagesOn_append, messagesOn_cons]
  exact congrArg _ (Nat.zero_add _)

/-- A tick delivers messages and keeps the others. -/
theorem messagesOn_tick (ic : Interconnect) (route : Route) :
    messagesOn route ic.tick.1 + messagesOn route ic.tick.2.messages
      = messagesOn route ic.messages := by
  have hkept : messagesOn route ic.tick.2.messages
      = messagesOn route (ic.messages.filter (!·.isDue)) := by
    rw [tick_waiting, messagesOn, List.countP_map]
    rfl
  rw [hkept, tick_due, ← messagesOn_append]
  exact (List.filter_append_perm Message.isDue ic.messages).countP_eq _

/-- What messages carry is on one of two routes. -/
theorem carried_perm (ic : Interconnect) :
    (carried ic.messages).Perm (ic.blocksOn .l2ToMemory ++ ic.blocksOn .memoryToL2) := by
  have hdown : ic.messages.filter (·.route == .l2ToMemory)
      = (ic.messages.filter Message.isTransfer).filter (·.route == .l2ToMemory) := by
    rw [List.filter_filter]
    apply List.filter_congr
    intro m _
    rw [Message.isTransfer]
    cases m.route <;> rfl
  -- A transfer that does not go down comes up.
  have hup : ic.messages.filter (·.route == .memoryToL2)
      = (ic.messages.filter Message.isTransfer).filter (!·.route == .l2ToMemory) := by
    rw [List.filter_filter]
    apply List.filter_congr
    intro m _
    rw [Message.isTransfer]
    cases m.route <;> rfl
  rw [blocksOn, blocksOn, hdown, hup, ← List.map_append]
  exact ((List.filter_append_perm _ _).map _).symm

end Interconnect

namespace Hierarchy

/-- The blocks on their way below the L2, place by place. -/
def transfers (h : Hierarchy) : List BlockRef :=
  h.interconnect.blocksOn .l2ToMemory ++ h.dram.pending.map (·.block)
    ++ h.dram.ongoing.map (·.block) ++ h.interconnect.blocksOn .memoryToL2

/-- The blocks in messages below the L2 and in memory requests. -/
def inTransit (h : Hierarchy) : List BlockRef :=
  carried h.interconnect.messages ++ h.dram.requests.map (·.block)

open List in
theorem transfers_perm (h : Hierarchy) : h.transfers.Perm h.inTransit := by
  have hcarried := h.interconnect.carried_perm
  rw [transfers, inTransit, Dram.Controller.requests, List.map_append]
  generalize h.interconnect.blocksOn .l2ToMemory = down at *
  generalize h.interconnect.blocksOn .memoryToL2 = up at *
  generalize h.dram.pending.map (·.block) = pending
  generalize h.dram.ongoing.map (·.block) = ongoing
  calc down ++ pending ++ ongoing ++ up
      _ = down ++ (pending ++ ongoing ++ up) := by simp only [List.append_assoc]
      _ ~ down ++ (up ++ (ongoing ++ pending)) := by
        apply List.Perm.append_left
        exact (List.perm_append_comm.append_right up).trans List.perm_append_comm
      _ = down ++ up ++ (ongoing ++ pending) := (List.append_assoc _ _ _).symm
      _ ~ carried h.interconnect.messages ++ (ongoing ++ pending) := hcarried.symm.append_right _

end Hierarchy

end MemoryHierarchy
