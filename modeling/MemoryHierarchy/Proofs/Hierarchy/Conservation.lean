import MemoryHierarchy.Proofs.Hierarchy.Pace

/-!
The counters agree with what is in the hierarchy.

`Books` sets the counters beside the amounts they answer for: messages on each route, requests
that wait and that are under way, dirty lines, withdrawn misses. Whatever happens is one `Entry`
after the other, and an entry that moves one side of a balance moves the other with it
(`Entry.balanced`). So the books of every state that a hierarchy comes to balance
(`run_balanced`), and with the miss table, which lists what is on its way, that is the
conservation of everything that is counted (`statistics_conserved`).
-/

namespace MemoryHierarchy

/-! ## Books -/

/-- The counters, and what they have to agree with. -/
structure Books where
  counters : Counters
  /-- Messages on the way to an L1. -/
  announcements : Nat
  /-- Messages on the way to memory. -/
  asks : Nat
  /-- Messages on the way from memory. -/
  returns : Nat
  /-- Requests that wait. -/
  pending : Nat
  /-- Requests under way. -/
  ongoing : Nat
  /-- Dirty lines of the L2. -/
  dirty : Nat
  /-- Outstanding misses that have been withdrawn. -/
  withdrawn : Nat

namespace Books

/-- The books with one message more on a route. -/
def send (b : Books) : Route → Books
  | .l2ToL1 => { b with announcements := b.announcements + 1 }
  | .l2ToMemory => { b with asks := b.asks + 1 }
  | .memoryToL2 => { b with returns := b.returns + 1 }

/-- The balances. What has been counted at the start of a stage has been counted at its end or is
still in it; and what was sent was delivered or is in flight. Only the announcements that a
withdrawal has prevented are missing, which are not counted themselves. -/
structure Balanced (b : Books) : Prop where
  misses : b.counters.l2Misses
    = b.counters.missesIssued + b.counters.missesMerged + b.counters.missesStalled
  asked : b.counters.missesIssued = b.counters.dramRequests + b.asks
  queued : b.counters.dramRequests
    = b.counters.rowHits + b.counters.rowMisses + b.counters.rowConflicts + b.pending
  started : b.counters.rowHits + b.counters.rowMisses + b.counters.rowConflicts
    = b.counters.dramRetired + b.ongoing
  returned : b.counters.dramRetired = b.counters.l2Fills + b.returns
  written : b.counters.l2WriteBacks + b.dirty ≤ b.counters.l2Writes
  taken : b.counters.l1Fills + b.counters.dramRequests + b.counters.l2Fills
    ≤ b.counters.messagesDelivered
  sentLeast : b.counters.messagesDelivered + (b.announcements + b.asks + b.returns)
      + b.counters.l2Writes
    ≤ b.counters.missesIssued + b.counters.dramRetired + b.counters.l2Hits + b.counters.l2Fills
  sentMost : b.counters.missesIssued + b.counters.dramRetired + b.counters.l2Hits
      + b.counters.l2Fills + b.withdrawn
    ≤ b.counters.messagesDelivered + (b.announcements + b.asks + b.returns) + b.counters.l2Writes
      + b.counters.cancellations

/-- What can happen, and what of the books it changes. A message that is delivered is still on its
route before. -/
inductive Entry : Books → Books → Prop
  /-- An L1 is looked up in. -/
  | lookedUp (b : Books) (kind : Kind) (outcome : Outcome) :
    Entry b { b with counters := b.counters.plus (Counters.lookupCounter kind outcome) 1 }
  /-- A read finds its block in the L2, which announces it. -/
  | readHit (b : Books) (dirty : Nat) (hdirty : dirty ≤ b.dirty) :
    Entry b { b with
      counters := { b.counters with l2Hits := b.counters.l2Hits + 1 }
      announcements := b.announcements + 1, dirty }
  /-- A write finds its block in the L2. -/
  | writeHit (b : Books) (dirty : Nat) (hdirty : dirty ≤ b.dirty + 1) :
    Entry b { b with
      counters := { b.counters with
        l2Hits := b.counters.l2Hits + 1, l2Writes := b.counters.l2Writes + 1 }
      dirty }
  /-- A block is asked of memory. -/
  | issued (b : Books) (withdrawn : Nat) (hwithdrawn : withdrawn ≤ b.withdrawn) :
    Entry b { b with
      counters := { b.counters with
        l2Misses := b.counters.l2Misses + 1, missesIssued := b.counters.missesIssued + 1 }
      asks := b.asks + 1, withdrawn }
  /-- A block is wanted again that is on its way. -/
  | merged (b : Books) (withdrawn : Nat) (hwithdrawn : withdrawn ≤ b.withdrawn) :
    Entry b { b with
      counters := { b.counters with
        l2Misses := b.counters.l2Misses + 1, missesMerged := b.counters.missesMerged + 1 }
      withdrawn }
  /-- A miss finds the miss table full. -/
  | stalled (b : Books) :
    Entry b { b with
      counters := { b.counters with
        l2Misses := b.counters.l2Misses + 1, missesStalled := b.counters.missesStalled + 1 } }
  /-- An outstanding miss is withdrawn, or none was outstanding. -/
  | withdrew (b : Books) (misses withdrawn : Nat) (hwithdrawn : withdrawn ≤ b.withdrawn + misses) :
    Entry b { b with
      counters := { b.counters with cancellations := b.counters.cancellations + misses }
      withdrawn }
  /-- An announcement reaches its L1, which takes the block in or has it already. -/
  | atL1 (b : Books) (inserted : Bool) :
    Entry { b with announcements := b.announcements + 1 } { b with
      counters := { b.counters with
        messagesDelivered := b.counters.messagesDelivered + 1
        l1Fills := b.counters.l1Fills + inserted.toNat } }
  /-- A miss reaches memory. -/
  | atMemory (b : Books) (pending : Nat) (hpending : pending = b.pending + 1) :
    Entry { b with asks := b.asks + 1 } { b with
      counters := { b.counters with
        messagesDelivered := b.counters.messagesDelivered + 1
        dramRequests := b.counters.dramRequests + 1 }
      pending }
  /-- A block reaches the L2, which drives a line out for it and announces it, unless the miss was
  withdrawn. -/
  | atL2 (b : Books) (dirty written announced withdrawn settled : Nat)
    (hdirty : dirty + written = b.dirty) (hone : announced + settled = 1)
    (hwithdrawn : withdrawn + settled = b.withdrawn) :
    Entry { b with returns := b.returns + 1 } { b with
      counters := { b.counters with
        messagesDelivered := b.counters.messagesDelivered + 1
        l2Fills := b.counters.l2Fills + 1
        l2WriteBacks := b.counters.l2WriteBacks + written }
      announcements := b.announcements + announced, dirty, withdrawn }
  /-- Memory retires requests and starts at most one. -/
  | memory (b : Books) (pending ongoing retired hits misses conflicts : Nat)
    (hpending : pending + (hits + misses + conflicts) = b.pending)
    (hongoing : ongoing + retired = b.ongoing + (hits + misses + conflicts)) :
    Entry b { b with
      counters := { b.counters with
        dramRetired := b.counters.dramRetired + retired
        rowHits := b.counters.rowHits + hits
        rowMisses := b.counters.rowMisses + misses
        rowConflicts := b.counters.rowConflicts + conflicts }
      returns := b.returns + retired, pending, ongoing }
  /-- The clock advances. -/
  | advanced (b : Books) (cycles : Nat) : Entry b { b with counters := { b.counters with cycles } }

variable {b b' : Books}

/-- No entry upsets a balance. -/
theorem Entry.balanced (he : Entry b b') (hb : b.Balanced) : b'.Balanced := by
  have hwritten := hb.written
  have htaken := hb.taken
  have hleast := hb.sentLeast
  have hmost := hb.sentMost
  cases he with
  | lookedUp _ kind outcome => cases kind <;> cases outcome <;> exact { hb with }
  | advanced => exact { hb with }
  | readHit _ dirty hdirty =>
    refine { hb with written := ?_, sentLeast := ?_, sentMost := ?_ } <;> dsimp only <;> omega
  | writeHit _ dirty hdirty =>
    refine { hb with written := ?_, sentLeast := ?_, sentMost := ?_ } <;> dsimp only <;> omega
  | issued _ withdrawn hwithdrawn =>
    have hmisses := hb.misses
    have hasked := hb.asked
    refine { hb with misses := ?_, asked := ?_, sentLeast := ?_, sentMost := ?_ } <;>
      dsimp only <;> omega
  | merged _ withdrawn hwithdrawn =>
    have hmisses := hb.misses
    refine { hb with misses := ?_, sentMost := ?_ } <;> dsimp only <;> omega
  | stalled =>
    have hmisses := hb.misses
    refine { hb with misses := ?_ }
    dsimp only
    omega
  | withdrew _ misses withdrawn hwithdrawn =>
    refine { hb with sentMost := ?_ }
    dsimp only
    omega
  | atL1 b inserted =>
    have hone := Bool.toNat_le inserted
    refine { hb with taken := ?_, sentLeast := ?_, sentMost := ?_ } <;> dsimp only at * <;> omega
  | atMemory b pending hpending =>
    have hasked := hb.asked
    have hqueued := hb.queued
    refine { hb with asked := ?_, queued := ?_, taken := ?_, sentLeast := ?_, sentMost := ?_ } <;>
      dsimp only at * <;> omega
  | atL2 b dirty written announced withdrawn settled hdirty hone hwithdrawn =>
    have hreturned := hb.returned
    refine { hb with
      returned := ?_, written := ?_, taken := ?_, sentLeast := ?_, sentMost := ?_ } <;>
      dsimp only at * <;> omega
  | memory _ pending ongoing retired hits misses conflicts hpending hongoing =>
    have hqueued := hb.queued
    have hstarted := hb.started
    have hreturned := hb.returned
    refine { hb with
      queued := ?_, started := ?_, returned := ?_, sentLeast := ?_, sentMost := ?_ } <;>
      dsimp only <;> omega

end Books

/-! ## The books of a hierarchy -/

namespace Hierarchy

open LineStore Books

/-- The books of a hierarchy that still has to deliver the messages `due`. -/
def books (due : List Message) (h : Hierarchy) : Books where
  counters := h.counters
  announcements := messagesOn .l2ToL1 due + messagesOn .l2ToL1 h.interconnect.messages
  asks := messagesOn .l2ToMemory due + messagesOn .l2ToMemory h.interconnect.messages
  returns := messagesOn .memoryToL2 due + messagesOn .memoryToL2 h.interconnect.messages
  pending := h.dram.pending.length
  ongoing := h.dram.ongoing.length
  dirty := h.l2.store.dirtyLines
  withdrawn := h.l2.misses.withdrawals

variable {frame : Frame} {contents : Kind → Nat → Word} {held : List BlockRef} {h h' : Hierarchy}
  {m : Message} {due : List Message}

theorem books_cons (h : Hierarchy) (m : Message) (due : List Message) :
    h.books (m :: due) = (h.books due).send m.route := by
  simp only [books, messagesOn_cons]
  cases m.route <;> simp [send, Nat.add_right_comm]

theorem books_sendOn (h : Hierarchy) (due : List Message) (b : BlockRef) (route : Route) :
    { h with interconnect := h.interconnect.sendOn b route }.books due
      = (h.books due).send route := by
  simp only [books, Interconnect.messagesOn_sendOn]
  cases route <;> simp [send, Nat.add_assoc]

theorem books_returning (h : Hierarchy) (due : List Message) (blocks : List BlockRef) :
    { h with interconnect := h.interconnect.returning blocks }.books due
      = { h.books due with returns := (h.books due).returns + blocks.length } := by
  simp [books, Interconnect.messagesOn_returning, Nat.add_assoc]

/-- What is due is still to be delivered, and all else is on its way. -/
theorem books_due (h : Hierarchy) :
    { h with interconnect := h.interconnect.tick.2 }.books h.interconnect.tick.1 = h.books [] := by
  simp only [books, Interconnect.messagesOn_tick]
  simp [messagesOn]

/-! ## Requests -/

theorem lookUp_enters (hs : h.Sound frame contents held) (due : List Message) (kind : Kind)
    (a : Nat) : Ends (h.lookUp kind a) Overflows fun r => Entry (h.books due) (r.2.books due) := by
  apply (lookUp_effect hs kind a).weaken
  intro r hr
  obtain ⟨l1, heq, -⟩ := hr
  rw [heq]
  exact .lookedUp (h.books due) kind r.1.outcome

/-- A probe that misses asks memory for the block, or waits for it, or finds no free slot. -/
theorem probeMiss_enters (h : Hierarchy) (due : List Message) (p : Probe) :
    Entry (h.books due) ({ h with
      l2 := (h.l2.probeMiss p h.interconnect).cache
      interconnect := (h.l2.probeMiss p h.interconnect).interconnect
      counters := h.counters.answered (h.l2.probeMiss p h.interconnect).response }.books due) := by
  rw [L2.probeMiss]
  split
  · have hrearm := h.l2.misses.withdrawals_mark_le (h.l2.blockOf p.address p.kind) false
    rw [Bool.and_false] at hrearm
    exact .merged (h.books due) _ hrearm
  · split
    · exact .stalled (h.books due)
    · rw [books_sendOn { h with
        l2 := { h.l2 with misses := h.l2.misses.add (h.l2.blockOf p.address p.kind) }
        counters := h.counters.answered (.miss .issued) }]
      have hadd := h.l2.misses.withdrawals_add (h.l2.blockOf p.address p.kind)
      exact .issued (h.books due) _ (Nat.le_of_eq hadd)

/-- A read that hits announces its block. -/
theorem served_enters (h : Hierarchy) (due : List Message) {p : Probe} {way : Nat} {line : Line}
    (hl : h.l2.store.line? (h.l2.store.geometry.locate p.address).index way = some line)
    (hread : p.operation = .read) :
    Entry (h.books due) ({ h with
      l2 := (h.l2.served p way line h.interconnect).cache
      interconnect := (h.l2.served p way line h.interconnect).interconnect
      counters := h.counters.answered .hit }.books due) := by
  have hdirty := L2.served_dirtyLines_read hl hread h.interconnect
  have hsent : (h.l2.served p way line h.interconnect).interconnect
      = h.interconnect.sendOn (h.l2.blockOf p.address p.kind) .l2ToL1 := by rw [L2.served, hread]
  rw [hsent, books_sendOn { h with
    l2 := (h.l2.served p way line h.interconnect).cache, counters := h.counters.answered .hit }]
  exact .readHit (h.books due) _ (Nat.le_of_eq hdirty)

/-- An access is a look-up, and a read of the L2 if that misses. -/
theorem access_balanced (hs : h.Sound frame contents held) (hb : (h.books due).Balanced)
    (kind : Kind) {a : Nat} (ha : a < frame.memoryBytes) :
    Ends (h.access kind a) Overflows fun r => (r.2.books due).Balanced := by
  rw [access]
  apply Ends.bind_ok (checkAddress_eq hs ha)
  apply Ends.bind' ((lookUp_sound hs kind a).also (lookUp_enters hs due kind a))
  intro found hfound
  obtain ⟨lookup, h₁⟩ := found
  obtain ⟨⟨hs₁, hmiss⟩, hentry⟩ := hfound
  have hb₁ := hentry.balanced hb
  cases lookup with
  | hit => exact Ends.pure' hb₁
  | miss p =>
    have hread := (hmiss p rfl).2
    apply Ends.bind' (probe_effect hs₁ p)
    intro r hr
    obtain ⟨probed, rfl, hprobed⟩ := hr
    apply Ends.pure'
    rcases hprobed with ⟨way, line, hc, rfl⟩ | ⟨-, rfl⟩
    · exact (served_enters h₁ due hc.here hread).balanced hb₁
    · exact (probeMiss_enters h₁ due p).balanced hb₁

/-- A write is a look-up and a write to the L2, which counts apart if it hits. -/
theorem write_balanced (hs : h.Sound frame contents held) (hb : (h.books due).Balanced)
    {a : Nat} (ha : a < frame.memoryBytes) (word : Word) :
    Ends (h.write a word) Overflows fun r => (r.2.books due).Balanced := by
  rw [write]
  apply Ends.bind_ok (checkAddress_eq hs ha)
  apply Ends.bind' ((lookUp_sound hs .data a).also (lookUp_enters hs due .data a))
  intro found hfound
  obtain ⟨lookup, h₁⟩ := found
  obtain ⟨⟨hs₁, -⟩, hentry⟩ := hfound
  have hb₁ := hentry.balanced hb
  apply Ends.bind' (probe_effect hs₁ ⟨a, .data, .write word⟩)
  intro r hr
  obtain ⟨probed, rfl, hprobed⟩ := hr
  apply Ends.bind' (Counters.incrementIf_spec _ _ _)
  intro counters hcounters
  subst hcounters
  apply Ends.pure'
  rcases hprobed with ⟨way, line, hc, rfl⟩ | ⟨-, rfl⟩
  · have hdirty := L2.served_dirtyLines_le hc.here h₁.interconnect
    exact (Entry.writeHit (h₁.books due) _ hdirty).balanced hb₁
  · obtain ⟨disposition, hmiss⟩ := h₁.l2.probeMiss_response ⟨a, .data, .write word⟩ h₁.interconnect
    have hcount : ∀ c : Counters, c.plus .l2Writes
        ((h₁.l2.probeMiss ⟨a, .data, .write word⟩ h₁.interconnect).response.outcome == .hit).toNat
          = c := by
      intro c
      rw [hmiss]
      exact c.plus_zero _
    dsimp only
    rw [hcount]
    exact (probeMiss_enters h₁ due ⟨a, .data, .write word⟩).balanced hb₁

theorem cancel_balanced (hb : (h.books due).Balanced) (kind : Kind) (a : Nat) :
    Ends (h.cancel kind a) Overflows fun r => (r.2.books due).Balanced := by
  rw [cancel]
  apply Ends.bind' (Counters.incrementIf_spec _ _ _)
  intro counters hcounters
  subst hcounters
  have hmark := h.l2.misses.withdrawals_mark_le
    (h.l2.blockOf ((h.l1.get kind).cancellation a).address ((h.l1.get kind).cancellation a).kind)
    true
  rw [Bool.and_true] at hmark
  exact Ends.pure' ((Entry.withdrew (h.books due) _ _ hmark).balanced hb)

/-! ## Ticks -/

/-- A delivery is one entry. -/
theorem Delivered.enters (hd : Delivered h m h') : Entry (h.books (m :: due)) (h'.books due) := by
  rw [books_cons]
  cases hd with
  | atL1 l1 counters hroute _ _ hcounted =>
    obtain ⟨inserted, rfl⟩ := hcounted
    rw [hroute]
    exact .atL1 (h.books due) inserted
  | atMemory r counters hroute _ _ _ hcounted =>
    subst hcounted
    rw [hroute]
    exact .atMemory (h.books due) _ List.length_append
  | atL2 filled counters hroute _ _ hmisses hnotified hsent hdirty hcounted =>
    subst hcounted
    rw [hroute]
    have hsettled := h.l2.misses.withdrawals_erase m.block
    rw [← hmisses] at hsettled
    change filled.notified = !h.l2.misses.withdrawn m.block at hnotified
    -- The arrival is announced unless the miss was withdrawn.
    cases hwithdrawn : h.l2.misses.withdrawn m.block with
    | true =>
      rw [hwithdrawn] at hnotified hsettled
      rw [hnotified, Bool.not_true, if_neg Bool.false_ne_true] at hsent
      rw [hsent]
      exact .atL2 (h.books due) _ _ 0 _ 1 hdirty rfl hsettled
    | false =>
      rw [hwithdrawn] at hnotified hsettled
      rw [hnotified, Bool.not_false, if_pos rfl] at hsent
      rw [hsent, books_sendOn { h with
        l2 := filled.cache, memories := filled.memories, counters := _ }]
      exact .atL2 (h.books due) _ _ 1 _ 0 hdirty rfl hsettled

theorem deliverDue_balanced (hs : h.Sound frame contents []) (hb : (h.books []).Balanced) :
    Ends h.deliverDue Overflows fun h' => (h'.books []).Balanced := by
  apply deliver_all_keep (fun due h => (h.books due).Balanced) ?_ _ (due_sound hs)
  · rw [books_due]
    exact hb
  · intro m due h h' _ hb hd
    exact hd.enters.balanced hb

theorem tickMemory_balanced (hs : h.Sound frame contents held) (hb : (h.books due).Balanced) :
    Ends h.tickMemory Overflows fun h' => (h'.books due).Balanced := by
  apply (tickMemory_effect hs.dram).weaken
  intro h' hh'
  obtain ⟨done, dram, hmemory, rfl⟩ := hh'
  obtain ⟨hpending, hongoing, -⟩ := (Dram.Controller.tick_lengths hs.dram h.cycle).of_ok hmemory
  rw [books_returning { h with dram, counters := h.counters.afterCycle done }]
  -- The request that is started, if any, counts by the row buffer that it found.
  obtain ⟨retired, started?⟩ := done
  cases started? with
  | none => exact (Entry.memory (h.books due) _ _ _ 0 0 0 hpending hongoing).balanced hb
  | some request =>
    rw [Counters.afterCycle]
    dsimp only
    cases request.status with
    | hit => exact (Entry.memory (h.books due) _ _ _ 1 0 0 hpending hongoing).balanced hb
    | miss => exact (Entry.memory (h.books due) _ _ _ 0 1 0 hpending hongoing).balanced hb
    | conflict => exact (Entry.memory (h.books due) _ _ _ 0 0 1 hpending hongoing).balanced hb

theorem tick_balanced (hs : h.Sound frame contents []) (hb : (h.books []).Balanced) :
    Ends h.tick Overflows fun h' => (h'.books []).Balanced := by
  rw [tick]
  apply Ends.bind' ((deliverDue_sound hs).also (deliverDue_balanced hs hb))
  intro h₁ hh₁
  apply Ends.bind' (tickMemory_balanced hh₁.1 hh₁.2)
  intro h₂ hb₂
  apply Ends.bind' (sum64_spec _ _)
  intro cycle _
  exact Ends.pure' ((Entry.advanced (h₂.books []) cycle).balanced hb₂)

/-! ## Runs -/

theorem perform_balanced (hs : h.Sound frame contents []) (hb : (h.books []).Balanced)
    {action : Action} (haction : action.InRange frame.memoryBytes) :
    Ends (h.perform action) Overflows fun r => (r.2.books []).Balanced := by
  cases action with
  | access kind a =>
    apply Ends.bind' (access_balanced hs hb kind haction)
    exact fun _ hb' => Ends.pure' hb'
  | write a word =>
    apply Ends.bind' (write_balanced hs hb haction word)
    exact fun _ hb' => Ends.pure' hb'
  | cancel kind a =>
    apply Ends.bind' (cancel_balanced hb kind a)
    exact fun _ hb' => Ends.pure' hb'
  | tick =>
    apply Ends.bind' (tick_balanced hs hb)
    exact fun _ hb' => Ends.pure' hb'

theorem run_balanced {actions : List Action} {past : List (Action × Reply)}
    (hh : h.Holds frame contents actions past) (hb : (h.books []).Balanced) :
    Ends (record Hierarchy.perform h actions past) Overflows fun r =>
      r.2.Holds frame contents [] r.1 ∧ (r.2.books []).Balanced := by
  apply Ends.record (fun rest past h => h.Holds frame contents rest past ∧ (h.books []).Balanced)
    ?_ actions past h ⟨hh, hb⟩
  intro action rest past h hh
  have haction := hh.1.inRange action List.mem_cons_self
  exact hh.1.perform.also (perform_balanced hh.1.sound hh.2 haction)

/-- Nothing has been counted, and nothing is there. -/
theorem build_balanced (c : Config) (g : Config.Geometries) (memories : PerKind Port) :
    ({ build c g with memories }.books []).Balanced := by
  have hdirty : (build c g).l2.store.dirtyLines = 0 := dirtyLines_empty _ _ _
  have hwithdrawn : (build c g).l2.misses.withdrawals = 0 := MissTable.withdrawals_empty _
  have hbooks : { build c g with memories }.books [] = ⟨{}, 0, 0, 0, 0, 0, 0, 0⟩ := by
    rw [books, hdirty, hwithdrawn]
    rfl
  rw [hbooks]
  exact ⟨rfl, rfl, rfl, rfl, rfl, Nat.le_refl _, Nat.le_refl _, Nat.le_refl _, Nat.le_refl _⟩

/-! ## Conservation -/

/-- The announcements that were due and have neither been delivered nor are on their way: what was
sent to memory and back, read from the L2 and filled into it, less what the interconnect has
delivered or still carries. -/
def unannounced (h : Hierarchy) : Int :=
  h.counters.missesIssued + h.counters.dramRetired + (h.counters.l2Hits - h.counters.l2Writes)
    + h.counters.l2Fills - h.counters.messagesDelivered - h.interconnect.messages.length

/-- Everything that is counted at one place is counted at the next or still on its way there. -/
structure Conserved (h : Hierarchy) : Prop where
  misses : h.counters.l2Misses
    = h.counters.missesIssued + h.counters.missesMerged + h.counters.missesStalled
  asked : h.counters.missesIssued
    = h.counters.dramRequests + messagesOn .l2ToMemory h.interconnect.messages
  queued : h.counters.dramRequests
    = h.counters.rowHits + h.counters.rowMisses + h.counters.rowConflicts + h.dram.pending.length
  started : h.counters.rowHits + h.counters.rowMisses + h.counters.rowConflicts
    = h.counters.dramRetired + h.dram.ongoing.length
  returned : h.counters.dramRetired
    = h.counters.l2Fills + messagesOn .memoryToL2 h.interconnect.messages
  tracked : h.counters.missesIssued = h.counters.l2Fills + h.l2.misses.size
  written : h.counters.l2WriteBacks + h.l2.store.dirtyLines ≤ h.counters.l2Writes
  taken : (h.counters.l1Fills : Int)
    ≤ h.counters.messagesDelivered - h.counters.dramRequests - h.counters.l2Fills
  unannounced_nonneg : 0 ≤ h.unannounced
  unannounced_le : h.unannounced ≤ h.counters.cancellations

/-- The slots taken in the miss table are the transfers below the L2, place by place. -/
theorem Sound.size_eq (hs : h.Sound frame contents []) :
    h.l2.misses.size = messagesOn .l2ToMemory h.interconnect.messages + h.dram.pending.length
      + h.dram.ongoing.length + messagesOn .memoryToL2 h.interconnect.messages := by
  rw [MissTable.size_eq, (hs.tracked.trans h.transfers_perm.symm).length_eq, transfers]
  simp only [List.length_append, List.length_map, Interconnect.length_blocksOn]

/-- Balanced books are conservation, since the miss table lists what is on its way. -/
theorem Sound.conserved (hs : h.Sound frame contents []) (hb : (h.books []).Balanced) :
    h.Conserved := by
  have hsize := hs.size_eq
  have hlength := length_eq_messagesOn h.interconnect.messages
  obtain ⟨hmisses, hasked, hqueued, hstarted, hreturned, hwritten, htaken, hleast, hmost⟩ := hb
  simp only [books, messagesOn, List.countP_nil, Nat.zero_add] at *
  refine ⟨hmisses, hasked, hqueued, hstarted, hreturned, ?_, hwritten, ?_, ?_, ?_⟩
  · omega
  · omega
  · rw [unannounced]
    omega
  · rw [unannounced]
    omega

/-- **Conservation.** In every state that a hierarchy of an accepted configuration comes to, the
counters agree with each other and with what is in the hierarchy, and announcements are missing
only for misses that were withdrawn. -/
theorem statistics_conserved (c : Config) (g : Config.Geometries) (hc : c.validate = .ok g)
    (past : List (Action × Reply)) (h : Hierarchy) (hreach : Reaches c past h) : h.Conserved := by
  obtain ⟨h₀, loads, start, actions, hbuild, hload, hactions, hrun⟩ := hreach
  obtain ⟨memories, rfl, hpace⟩ := start_inPace hc hbuild hload hactions
  obtain ⟨hholds, hbalanced⟩ := (run_balanced hpace.holds (build_balanced c g memories)).of_ok hrun
  exact hholds.sound.conserved hbalanced

/-- A withdrawn miss whose block came unannounced and was written to, and three more misses on
their way: one asked for, one that waits and one under way. -/
theorem statistics_conserved_withdrawn :
    ∃ (c : Config) (g : Config.Geometries) (past : List (Action × Reply)) (h : Hierarchy),
      c.validate = .ok g ∧ Reaches c past h
        ∧ h.interconnect.messages.map (·.route) = [.l2ToMemory] ∧ h.dram.pending.length = 1
        ∧ h.dram.ongoing.length = 1 ∧ h.l2.store.dirtyLines = 1 ∧ h.unannounced = 1
        ∧ h.Conserved := by
  obtain ⟨c, g, h₀, hvalid, hbuild, hbytes, r, hr, hmessages, hpending, hongoing, hdirty,
      hunannounced⟩ :
      ∃ (c : Config) (g : Config.Geometries) (h₀ : Hierarchy), c.validate = .ok g
        ∧ ofConfig? c = .ok h₀ ∧ c.general.memoryBytes.toNat = 16
        ∧ ∃ r, record Hierarchy.perform h₀
            [.access .data 5, .cancel .data 5, .tick, .tick, .tick, .tick, .write 5 7,
              .access .data 13, .access .data 9, .tick, .access .instruction 5] = .ok r
          ∧ r.2.interconnect.messages.map (·.route) = [.l2ToMemory]
          ∧ r.2.dram.pending.length = 1 ∧ r.2.dram.ongoing.length = 1
          ∧ r.2.l2.store.dirtyLines = 1 ∧ r.2.unannounced = 1 :=
    ⟨{ general := { wordBits := 8, memoryBytes := 16 }
       caches := { l1Instruction := ⟨4, 1, 4⟩, l1Data := ⟨4, 1, 4⟩, l2 := ⟨8, 1, 4⟩ }
       missTracking := { entries := 3 }
       latencies := ⟨1, 1, 1⟩
       dram := ⟨1, 4, 1, 1, 1⟩ }, _, _, rfl, rfl, rfl, _, rfl, rfl, rfl, rfl, rfl, rfl⟩
  obtain ⟨past, h⟩ := r
  have hreach : Reaches c past h := by
    refine ⟨h₀, [], h₀, _, hbuild, rfl, ?_, hr⟩
    rw [hbytes]
    simp [Action.InRange]
  exact ⟨c, g, past, h, hvalid, hreach, hmessages, hpending, hongoing, hdirty, hunannounced,
    statistics_conserved c g hvalid past h hreach⟩

end Hierarchy

end MemoryHierarchy
