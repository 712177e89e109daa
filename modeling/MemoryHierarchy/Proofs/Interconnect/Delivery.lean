import MemoryHierarchy.Interconnect
import MemoryHierarchy.Proofs.Run

/-!
When the interconnect delivers what it was given.

A `Sending` is a block given to the interconnect and the number of ticks that had passed; this
fixes the tick that is `due` to deliver it. `sent` reads the sendings off a history of calls. What
is on its way is then, at any time, the sendings whose tick has not come (`Scheduled`), a tick
delivers those whose number it has, and no sending is lost or delivered twice (`delivered_perm`).
Messages of unlike latency overtake each other; those of one latency do not (`delivered_in_order`).
-/

namespace MemoryHierarchy.Interconnect

/-! ## One tick -/

theorem tick_due (ic : Interconnect) : ic.tick.1 = ic.messages.filter Message.isDue := by
  rw [tick, List.partition_eq_filter_filter]

theorem tick_waiting (ic : Interconnect) :
    ic.tick.2
      = { ic with messages := (ic.messages.filter (!Message.isDue ·)).map Message.countDown } := by
  rw [tick, List.partition_eq_filter_filter]
  rfl

/-! ## Calls and sendings -/

/-- What is asked of the interconnect. -/
inductive Call where
  | send (block : BlockRef) (latency : Nat) (route : Route)
  | sendOn (block : BlockRef) (route : Route)
  | tick
  deriving Repr, DecidableEq

/-- One call, and the messages it delivers. -/
def perform (ic : Interconnect) : Call → Except Fault (List Message × Interconnect)
  | .send block latency route => .ok ([], ic.send block latency route)
  | .sendOn block route => .ok ([], ic.sendOn block route)
  | .tick => .ok ic.tick

/-- The calls so far, latest first, each with the messages it delivered. -/
abbrev History : Type := List (Call × List Message)

/-- A block given to the interconnect. -/
structure Sending where
  block : BlockRef
  latency : Nat
  route : Route
  /-- Whether the latency was left to the route. -/
  configured : Bool
  /-- The ticks that had passed. -/
  sentAt : Nat
  deriving Repr, DecidableEq

namespace Sending

/-- The number of the tick that is to deliver it. -/
def due (s : Sending) : Nat := s.sentAt + max s.latency 1

/-- The message it is on the queue after `n` ticks. -/
def message (n : Nat) (s : Sending) : Message := ⟨s.block, s.due - n - 1, s.route⟩

end Sending

/-- The ticks that have passed. -/
def ticks (history : History) : Nat := history.countP (·.1 = .tick)

/-- What a call sends after `n` ticks. -/
def sending? (latencies : Config.Latencies) (n : Nat) : Call → Option Sending
  | .send block latency route => some ⟨block, latency, route, false, n⟩
  | .sendOn block route => some ⟨block, (empty latencies).latency route, route, true, n⟩
  | .tick => none

/-- What was sent, in the order of sending. -/
def sent (latencies : Config.Latencies) : History → List Sending
  | [] => []
  | (call, _) :: past => sent latencies past ++ (sending? latencies (ticks past) call).toList

/-- What was sent and is due after the ticks that have passed. -/
def waiting (latencies : Config.Latencies) (history : History) : List Sending :=
  (sent latencies history).filter (ticks history < ·.due)

/-- What was sent and is due at the next tick. -/
def dueNext (latencies : Config.Latencies) (history : History) : List Sending :=
  (sent latencies history).filter (·.due = ticks history + 1)

/-- What a call is to deliver. -/
def delivers (latencies : Config.Latencies) (past : History) : Call → List Sending
  | .send .. | .sendOn .. => []
  | .tick => dueNext latencies past

/-- What the calls so far were to deliver, in the order of delivery. -/
def delivered (latencies : Config.Latencies) : History → List Sending
  | [] => []
  | (call, _) :: past => delivered latencies past ++ delivers latencies past call

variable {latencies : Config.Latencies}

theorem ne_tick_of_sending? {n : Nat} {call : Call} {s : Sending}
    (h : sending? latencies n call = some s) : call ≠ .tick := by
  rintro rfl
  cases h

theorem sentAt_of_sending? {n : Nat} {call : Call} {s : Sending}
    (h : sending? latencies n call = some s) : s.sentAt = n := by
  cases call <;> cases h <;> rfl

theorem ticks_cons (call : Call) (answer : List Message) (past : History) :
    ticks ((call, answer) :: past) = ticks past + if call = .tick then 1 else 0 := by
  simp [ticks, List.countP_cons]

theorem sentAt_le {history : History} :
    ∀ s ∈ sent latencies history, s.sentAt ≤ ticks history := by
  induction history with
  | nil => simp [sent]
  | cons entry past ih =>
    obtain ⟨call, answer⟩ := entry
    intro s hs
    rw [ticks_cons]
    rcases List.mem_append.mp hs with hs | hs
    · exact Nat.le_add_right_of_le (ih s hs)
    · rw [sentAt_of_sending? (Option.mem_toList.mp hs)]
      exact Nat.le_add_right _ _

theorem Sending.sentAt_lt_due (s : Sending) : s.sentAt < s.due := by
  rw [due]
  omega

/-- A call that sends puts one more sending at the end of those that wait. -/
theorem waiting_cons {call : Call} {past : History} {s : Sending} (answer : List Message)
    (hs : sending? latencies (ticks past) call = some s) :
    waiting latencies ((call, answer) :: past) = waiting latencies past ++ [s] := by
  have hlt : ticks past < s.due := sentAt_of_sending? hs ▸ s.sentAt_lt_due
  rw [waiting, ticks_cons, if_neg (ne_tick_of_sending? hs), Nat.add_zero, sent, hs,
    Option.toList_some, List.filter_append, List.filter_singleton, decide_eq_true hlt]
  rfl

/-- After a tick, what was not due at it waits on. -/
theorem waiting_tick (answer : List Message) (past : History) :
    waiting latencies ((.tick, answer) :: past)
      = (waiting latencies past).filter (ticks past + 1 < ·.due) := by
  rw [waiting, waiting, ticks_cons, if_pos rfl, sent, sending?, Option.toList_none,
    List.append_nil, List.filter_filter]
  apply List.filter_congr
  intro s _
  rw [← Bool.decide_and]
  exact decide_eq_decide.mpr ⟨fun h => ⟨h, Nat.lt_of_succ_lt h⟩, fun h => h.1⟩

/-- What is due at the next tick waits until then. -/
theorem dueNext_eq (past : History) :
    dueNext latencies past = (waiting latencies past).filter (·.due = ticks past + 1) := by
  rw [dueNext, waiting, List.filter_filter]
  apply List.filter_congr
  intro s _
  rw [← Bool.decide_and]
  exact decide_eq_decide.mpr ⟨fun h => ⟨h, h ▸ Nat.lt_succ_self _⟩, fun h => h.1⟩

/-! ## The queue -/

/-- The queue of an interconnect after a history of calls. -/
structure Scheduled (latencies : Config.Latencies) (history : History) (ic : Interconnect) :
    Prop where
  latencies_eq : ic.latencies = latencies
  messages_eq : ic.messages = (waiting latencies history).map (Sending.message (ticks history))

/-- A sending that waits is a message that the next tick delivers if it is due, and else counts
down. -/
theorem message_isDue {n : Nat} {s : Sending} (h : n < s.due) :
    (s.message n).isDue = decide (s.due = n + 1) := by
  rw [Message.isDue, Sending.message, Bool.eq_iff_iff, beq_iff_eq, decide_eq_true_iff]
  change s.due - n - 1 = 0 ↔ s.due = n + 1
  omega

theorem message_countDown (n : Nat) (s : Sending) :
    (s.message n).countDown = s.message (n + 1) := by
  simp only [Message.countDown, Sending.message, Message.mk.injEq, true_and, and_true]
  omega

namespace Scheduled

variable {history : History} {ic : Interconnect}

theorem latency_eq (h : Scheduled latencies history ic) (route : Route) :
    ic.latency route = (empty latencies).latency route := by
  cases route <;> simp [latency, empty, h.latencies_eq]

theorem send (h : Scheduled latencies history ic) (call : Call) {s : Sending}
    (hs : sending? latencies (ticks history) call = some s) :
    Scheduled latencies ((call, []) :: history)
      { ic with messages := ic.messages ++ [s.message (ticks history)] } where
  latencies_eq := h.latencies_eq
  messages_eq := by
    rw [waiting_cons [] hs, ticks_cons, if_neg (ne_tick_of_sending? hs), Nat.add_zero,
      List.map_append, ← h.messages_eq]
    rfl

theorem tick_delivers (h : Scheduled latencies history ic) :
    ic.tick.1 = (dueNext latencies history).map (Sending.message (ticks history)) := by
  rw [tick_due, h.messages_eq, List.filter_map, dueNext_eq]
  congr 1
  apply List.filter_congr
  intro s hs
  exact message_isDue (of_decide_eq_true (List.mem_filter.mp hs).2)

theorem tick (h : Scheduled latencies history ic) (answer : List Message) :
    Scheduled latencies ((.tick, answer) :: history) ic.tick.2 where
  latencies_eq := by
    rw [tick_waiting]
    exact h.latencies_eq
  messages_eq := by
    have hcount : Message.countDown ∘ Sending.message (ticks history)
        = Sending.message (ticks history + 1) := funext (message_countDown _)
    have hleft : (waiting latencies history).filter
          ((!Message.isDue ·) ∘ Sending.message (ticks history))
        = (waiting latencies history).filter (ticks history + 1 < ·.due) := by
      apply List.filter_congr
      intro s hs
      have hlt : ticks history < s.due := of_decide_eq_true (List.mem_filter.mp hs).2
      rw [Function.comp, message_isDue hlt, ← decide_not]
      exact decide_eq_decide.mpr (by omega)
    rw [tick_waiting, h.messages_eq, waiting_tick, ticks_cons, if_pos rfl, List.filter_map,
      List.map_map, hcount, hleft]

end Scheduled

/-- One call delivers what it is to deliver and keeps the queue. -/
theorem perform_spec {history : History} {ic : Interconnect}
    (h : Scheduled latencies history ic) (call : Call) :
    Ends (ic.perform call) Never fun r =>
      r.1 = (delivers latencies history call).map (Sending.message (ticks history))
        ∧ Scheduled latencies ((call, r.1) :: history) r.2 := by
  -- A message sent now has its whole latency before it.
  have hremaining (n latency : Nat) : n + max latency 1 - n - 1 = latency - 1 := by omega
  cases call with
  | send block latency route =>
    have hsend := h.send (.send block latency route) rfl
    rw [Sending.message, Sending.due, hremaining] at hsend
    exact Ends.ok rfl ⟨rfl, hsend⟩
  | sendOn block route =>
    have hsend := h.send (.sendOn block route) rfl
    rw [Sending.message, Sending.due, hremaining, ← h.latency_eq] at hsend
    exact Ends.ok rfl ⟨rfl, hsend⟩
  | tick => exact Ends.ok rfl ⟨h.tick_delivers, h.tick _⟩

/-- A run keeps the queue, and each call in it delivers what it is to deliver. -/
theorem run_scheduled (latencies : Config.Latencies) (calls : List Call) :
    Ends (record perform (empty latencies) calls) Never fun r =>
      Scheduled latencies r.1 r.2 ∧ Each (fun past call answer =>
        answer = (delivers latencies past call).map (Sending.message (ticks past))) r.1 := by
  apply Ends.record (fun _ history ic => Scheduled latencies history ic ∧
    Each (fun past call answer =>
      answer = (delivers latencies past call).map (Sending.message (ticks past))) history)
    ?_ calls [] (empty latencies) ⟨⟨rfl, rfl⟩, trivial⟩
  intro call _ past ic h
  exact (perform_spec h.1 call).weaken fun r hr => ⟨hr.2, hr.1, h.2⟩

/-! ## Exactly once, and in order -/

/-- Whatever was sent has been delivered or waits, and no sending does both or is delivered
twice. -/
theorem delivered_perm (history : History) :
    (delivered latencies history ++ waiting latencies history).Perm (sent latencies history) := by
  induction history with
  | nil => exact List.Perm.refl _
  | cons entry past ih =>
    obtain ⟨call, answer⟩ := entry
    cases call with
    | send | sendOn =>
      rw [waiting_cons answer rfl, ← List.append_assoc, delivered, delivers, List.append_nil]
      exact ih.append_right _
    | tick =>
      have hwaiting : waiting latencies ((.tick, answer) :: past)
          = (waiting latencies past).filter fun s => !decide (s.due = ticks past + 1) := by
        rw [waiting_tick]
        apply List.filter_congr
        intro s hs
        have hlt : ticks past < s.due := of_decide_eq_true (List.mem_filter.mp hs).2
        rw [← decide_not]
        exact decide_eq_decide.mpr (by omega)
      have hsplit := List.filter_append_perm (fun s : Sending => decide (s.due = ticks past + 1))
        (waiting latencies past)
      rw [hwaiting, delivered, delivers, dueNext_eq, List.append_assoc, sent, sending?,
        Option.toList_none, List.append_nil]
      exact (hsplit.append_left _).trans ih

/-- Of a list in order, what exceeds `n` is what is next, then what exceeds that. -/
theorem filter_lt_of_ordered {α : Type} {f : α → Nat} (n : Nat) {l : List α}
    (h : l.Pairwise (f · ≤ f ·)) :
    l.filter (n < f ·) = l.filter (f · = n + 1) ++ l.filter (n + 1 < f ·) := by
  induction h with
  | nil => rfl
  | @cons a l ha _ ih =>
    by_cases hnext : f a = n + 1
    · simp [hnext, ih]
    · by_cases hlt : n < f a
      · -- nothing later can be the next
        have hlater : l.filter (f · = n + 1) = [] := by
          rw [List.filter_eq_nil_iff]
          intro b hb
          have := ha b hb
          rw [decide_eq_true_iff]
          omega
        have hmore : n + 1 < f a := by omega
        simp [hnext, hlt, hmore, ih, hlater]
      · have hless : ¬n + 1 < f a := by omega
        simp [hnext, hlt, hless, ih]

/-- Sendings of one latency become due in the order in which they were sent. -/
theorem due_ordered {p : Sending → Bool} {latency : Nat} (history : History)
    (hp : ∀ s ∈ sent latencies history, p s → s.latency = latency) :
    ((sent latencies history).filter p).Pairwise (·.due ≤ ·.due) := by
  induction history with
  | nil => exact List.Pairwise.nil
  | cons entry past ih =>
    obtain ⟨call, answer⟩ := entry
    rw [sent] at hp ⊢
    have hpast := ih fun s hs => hp s (List.mem_append_left _ hs)
    rw [List.filter_append, List.pairwise_append]
    refine ⟨hpast, ?_, ?_⟩
    · cases sending? latencies (ticks past) call with
      | none => exact List.Pairwise.nil
      | some s => exact (List.pairwise_singleton _ s).filter _
    · intro s hs t ht
      obtain ⟨hs, hps⟩ := List.mem_filter.mp hs
      obtain ⟨ht, hpt⟩ := List.mem_filter.mp ht
      have hls := hp s (List.mem_append_left _ hs) hps
      have hlt := hp t (List.mem_append_right _ ht) hpt
      have hsentAt : t.sentAt = ticks past := sentAt_of_sending? (Option.mem_toList.mp ht)
      rw [Sending.due, Sending.due, hls, hlt, hsentAt]
      exact Nat.add_le_add_right (sentAt_le s hs) _

/-- Sendings of one latency are delivered in the order in which they were sent. -/
theorem delivered_in_order {p : Sending → Bool} {latency : Nat} (history : History)
    (hp : ∀ s ∈ sent latencies history, p s → s.latency = latency) :
    (delivered latencies history ++ waiting latencies history).filter p
      = (sent latencies history).filter p := by
  induction history with
  | nil => rfl
  | cons entry past ih =>
    obtain ⟨call, answer⟩ := entry
    have hpast := ih fun s hs => hp s (List.mem_append_left _ hs)
    cases call with
    | send | sendOn =>
      rw [waiting_cons answer rfl, ← List.append_assoc, delivered, delivers, List.append_nil,
        List.filter_append, hpast, sent, List.filter_append]
      rfl
    | tick =>
      have hordered := due_ordered past fun s hs => hp s (List.mem_append_left _ hs)
      have hsplit := filter_lt_of_ordered (ticks past) hordered
      rw [waiting, ticks_cons, if_pos rfl, delivered, delivers, sent, sending?,
        Option.toList_none, List.append_nil, ← hpast, List.append_assoc, List.filter_append,
        List.filter_append, List.filter_append]
      congr 1
      simp only [dueNext, waiting, List.filter_filter] at hsplit ⊢
      simp only [Bool.and_comm (p _)] at *
      exact hsplit.symm

/-- What is sent on a route with its own latency has that latency. -/
theorem latency_of_configured {route : Route} (history : History) :
    ∀ s ∈ sent latencies history, (s.configured && s.route == route) →
      s.latency = (empty latencies).latency route := by
  induction history with
  | nil => simp [sent]
  | cons entry past ih =>
    obtain ⟨call, answer⟩ := entry
    intro s hs
    rcases List.mem_append.mp hs with hs | hs
    · exact ih s hs
    · intro hroute
      have hs := Option.mem_toList.mp hs
      cases call <;> cases hs
      · cases hroute
      · rw [← eq_of_beq (Bool.and_eq_true_iff.mp hroute).2]

/-- **Exact delivery.** No call faults. The tick of number `n + max latency 1`, and no other,
delivers what was sent with `latency` after `n` ticks, in the order of sending; the queue holds
what waits, in the order of sending, each message with the ticks still needed less one; each
sending is delivered once or still waits. To send on a route is to send with its latency, and what
is sent so on one route is delivered in the order of sending. -/
theorem exact_delivery (latencies : Config.Latencies) (calls : List Call) :
    Ends (record perform (empty latencies) calls) Never fun (history, ic) =>
      Each (fun past call answer =>
          answer = (delivers latencies past call).map (Sending.message (ticks past))) history
        ∧ ic.messages = (waiting latencies history).map (Sending.message (ticks history))
        ∧ (delivered latencies history ++ waiting latencies history).Perm
            (sent latencies history)
        ∧ (∀ block route, ic.sendOn block route
            = ic.send block ((empty latencies).latency route) route)
        ∧ ∀ route, (delivered latencies history ++ waiting latencies history).filter
              (fun s => s.configured && s.route == route)
            = (sent latencies history).filter fun s => s.configured && s.route == route := by
  apply (run_scheduled latencies calls).weaken
  intro r hr
  obtain ⟨history, ic⟩ := r
  obtain ⟨hscheduled, hanswers⟩ := hr
  refine ⟨hanswers, hscheduled.messages_eq, delivered_perm history, ?_, ?_⟩
  · intro block route
    rw [sendOn, hscheduled.latency_eq]
  · exact fun route => delivered_in_order history (latency_of_configured history)

end MemoryHierarchy.Interconnect
