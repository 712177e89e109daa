import Mathlib.Data.List.Forall2
import Mathlib.Data.Option.Basic
import MemoryHierarchy.Proofs.Dram.Reservations

/-!
What each step of the controller does.

`drop` and `launch` are the state changes of retiring and of starting one request, written out.
`retire_eq` says which requests a cycle retires; `schedule_spec` says what a cycle may start: a
waiting request, planned against its bank as it is, that conflicts with nothing reserved.
-/

namespace MemoryHierarchy.Dram

/-! ## Plans -/

theorem Interval.ofLength_spec (start length : Nat) :
    Ends (Interval.ofLength start length) Overflows fun i => i = ⟨start, start + length - 1⟩ := by
  apply Ends.bind' (sum64_spec start length)
  intro next hnext
  subst hnext
  apply Ends.bind' (difference_spec _ 1)
  intro stop hstop
  rw [hstop.2]
  exact Ends.pure' rfl

theorem PhaseSlots.startingAt_spec (t : Timing) (start : Nat) :
    Ends (PhaseSlots.startingAt t start) Overflows fun _ => True := by
  apply Ends.bind' (Interval.ofLength_spec _ _)
  intro command _
  apply Ends.bind' (Interval.ofLength_spec _ _)
  intro lock _
  exact Ends.pure' trivial

theorem Plan.endingWith_spec (t : Timing) (now : Nat) (precharge? activate? : Option Interval)
    (last : PhaseSlots) :
    Ends (Plan.endingWith t now precharge? activate? last) Overflows fun _ => True := by
  apply Ends.bind' (Interval.ofLength_spec _ _)
  intro data _
  exact Ends.pure' trivial

/-- Planning fails only where a cycle number does not fit. -/
theorem Plan.compute_spec (t : Timing) (now : Nat) (status : RowStatus) :
    Ends (Plan.compute t now status) Overflows fun _ => True := by
  cases status with
  | hit =>
    exact Ends.bind' (PhaseSlots.startingAt_spec _ _) fun _ _ => Plan.endingWith_spec _ _ _ _ _
  | miss =>
    apply Ends.bind' (PhaseSlots.startingAt_spec _ _)
    intro activate _
    exact Ends.bind' (PhaseSlots.startingAt_spec _ _) fun _ _ => Plan.endingWith_spec _ _ _ _ _
  | conflict =>
    apply Ends.bind' (PhaseSlots.startingAt_spec _ _)
    intro precharge _
    apply Ends.bind' (PhaseSlots.startingAt_spec _ _)
    intro activate _
    exact Ends.bind' (PhaseSlots.startingAt_spec _ _) fun _ _ => Plan.endingWith_spec _ _ _ _ _

/-! ## Banks -/

/-- The commands for the state a bank is in leave the row of the request open. -/
theorem Bank.performAll_phases (b : Bank) (row : Nat) :
    b.performAll (b.status row).phases row = .ok { b with openRow? := some row } := by
  obtain ⟨openRow?, reservations⟩ := b
  cases openRow? with
  | none => simp [Bank.performAll, Bank.status, RowStatus.phases, Bank.perform, Bank.activate,
      Bank.access, bind, Except.bind, pure, Except.pure]
  | some other =>
    by_cases h : other = row
    · subst h
      simp [Bank.performAll, Bank.status, RowStatus.phases, Bank.perform, Bank.access, bind,
        Except.bind, pure, Except.pure]
    · simp [Bank.performAll, Bank.status, RowStatus.phases, Bank.perform, Bank.precharge,
        Bank.activate, Bank.access, h, bind, Except.bind, pure, Except.pure]

namespace Controller

theorem bank_eq {c : Controller} {i : Nat} (h : i < c.banks.size) : c.bank i = .ok c.banks[i] :=
  inBounds_eq_ok.mpr (Array.getElem?_eq_getElem h)

theorem putBank_eq {c : Controller} {i : Nat} (h : i < c.banks.size) (f : Bank → Bank) :
    c.putBank i (f c.banks[i]) = { c with banks := c.banks.modify i f } := by
  have hset : c.banks.setIfInBounds i (f c.banks[i]) = c.banks.modify i f := by
    apply Array.ext
    · simp
    · intro j h₁ h₂
      rw [Array.getElem_setIfInBounds (by simpa using h₁), Array.getElem_modify]
      by_cases hij : i = j
      · subst hij; simp
      · simp [hij]
  rw [putBank, hset]

/-! ## Retiring -/

/-- The controller after everything that a request holds has been dropped. -/
def drop (c : Controller) (r : Request) : Controller :=
  { c with
    channel := c.channel.release r.id
    banks := c.banks.modify r.bank (·.release r.id) }

@[simp] theorem drop_banks_size (c : Controller) (r : Request) :
    (c.drop r).banks.size = c.banks.size := by simp [drop]

theorem release_eq {c : Controller} {r : Request} (h : r.bank < c.banks.size) :
    c.release r = .ok (c.drop r) := by
  rw [release, bank_eq h]
  change Except.ok (putBank _ _ _) = _
  rw [putBank_eq (c := { c with channel := c.channel.release r.id }) h (·.release r.id)]
  rfl

theorem foldlM_release (ended : List Request) (c : Controller)
    (h : ∀ r ∈ ended, r.bank < c.banks.size) :
    ended.foldlM release c = .ok (ended.foldl drop c) := by
  induction ended generalizing c with
  | nil => rfl
  | cons r rest ih =>
    rw [List.foldlM_cons, release_eq (h r List.mem_cons_self)]
    apply ih
    intro s hs
    rw [drop_banks_size]
    exact h s (List.mem_cons_of_mem _ hs)

/-- The started requests whose transfer has ended by cycle `now`. -/
def ended (c : Controller) (now : Nat) : List Request := c.ongoing.filter (hasEnded now)

/-- The started requests that are still under way after cycle `now` has retired the others. -/
def underWay (c : Controller) (now : Nat) : List Request := c.ongoing.filter (!hasEnded now ·)

/-- The controller after cycle `now` has retired what has ended. -/
def afterRetire (c : Controller) (now : Nat) : Controller :=
  (c.ended now).foldl drop { c with ongoing := c.underWay now }

theorem retire_eq {c : Controller} (now : Nat) (h : ∀ r ∈ c.ongoing, r.bank < c.banks.size) :
    c.retire now = .ok ((c.ended now).map (·.block), c.afterRetire now) := by
  have hp : c.ongoing.partition (hasEnded now) = (c.ended now, c.underWay now) :=
    List.partition_eq_filter_filter
  have hf := foldlM_release (c.ended now) { c with ongoing := c.underWay now }
    fun r hr => h r (List.mem_filter.mp hr).1
  simp only [retire, hp, hf]
  rfl

/-! ## Starting a request -/

/-- A waiting request as it stands after planning it anew. -/
def Replanned (r s : Request) : Prop := ∃ status plan, s = { r with status, plan }

/-- A request that was planned against its bank as it is, and meets no reservation. -/
structure Startable (c : Controller) (now : Nat) (r : Request) : Prop where
  status : ∃ b, c.banks[r.bank]? = some b ∧ r.status = b.status r.row
  plan : Plan.compute c.timing now r.status = .ok r.plan
  candidate : c.isCandidate r = .ok true

/-- What a pass over the queue makes of a waiting request, and what it notes. -/
structure Surveyed (c : Controller) (now : Nat) (r : Request) (q : Request × Bool) : Prop where
  same : Replanned r q.1
  startable : q.2 = true → c.Startable now q.1

theorem Replanned.refl (r : Request) : Replanned r r := ⟨r.status, r.plan, rfl⟩

theorem forall₂_surveyed_skip (c : Controller) (now : Nat) (rest : List Request) :
    List.Forall₂ (c.Surveyed now) rest (rest.map (·, false)) := by
  induction rest with
  | nil => exact .nil
  | cons r rest ih => exact .cons ⟨.refl r, by simp⟩ ih

theorem startable_of_mem {c : Controller} {now : Nat} {rs : List Request}
    {queue : List (Request × Bool)} (h : List.Forall₂ (c.Surveyed now) rs queue) :
    ∀ q ∈ queue, q.2 = true → c.Startable now q.1 := by
  induction h with
  | nil => simp
  | cons hr _ ih =>
    intro q hq
    rcases List.mem_cons.mp hq with rfl | hq
    · exact hr.startable
    · exact ih q hq

theorem replan_spec {c : Controller} (now : Nat) {r : Request} (h : r.bank < c.banks.size) :
    Ends (c.replan now r) Overflows fun s => Replanned r s
      ∧ s.status = c.banks[r.bank].status r.row
      ∧ Plan.compute c.timing now s.status = .ok s.plan := by
  rw [replan, bank_eq h]
  apply Ends.bind' (Plan.compute_spec _ _ _).and_eq
  intro plan hplan
  exact Ends.pure' ⟨⟨_, _, rfl⟩, rfl, hplan.2⟩

theorem survey_spec {c : Controller} {live : List Request} (hc : c.Holds live) (now : Nat) :
    ∀ queue : List Request, (∀ r ∈ queue, r.bank < c.banks.size) →
      Ends (c.survey now queue) Overflows (List.Forall₂ (c.Surveyed now) queue)
  | [], _ => .nil
  | r :: rest, h => by
    have hr := h r List.mem_cons_self
    rw [survey]
    apply Ends.bind' (replan_spec now hr)
    intro s hs
    obtain ⟨hsame, hstatus, hplan⟩ := hs
    have hbank : s.bank = r.bank := by obtain ⟨_, _, rfl⟩ := hsame; rfl
    have hrow : s.row = r.row := by obtain ⟨_, _, rfl⟩ := hsame; rfl
    have hs : s.bank < c.banks.size := by rw [hbank]; exact hr
    have hcand := isCandidate_eq hc hs
    have hstart : (live.all fun t => !t.conflictsWith s) = true → c.Startable now s := by
      intro hall
      refine ⟨⟨c.banks[s.bank], Array.getElem?_eq_getElem hs, ?_⟩, hplan, ?_⟩
      · simp only [hstatus, hbank, hrow]
      · rw [hcand, hall]
    rw [hcand]
    -- A candidate whose row is open ends the survey; the rest of the queue stays as it is.
    apply Ends.ite'
    · intro hit
      exact Ends.pure' (.cons ⟨hsame, fun _ => hstart (Bool.and_eq_true_iff.mp hit).1⟩
        (forall₂_surveyed_skip c now rest))
    · intro _
      apply Ends.bind' (survey_spec hc now rest fun t ht => h t (List.mem_cons_of_mem _ ht))
      intro queue hqueue
      exact Ends.pure' (.cons ⟨hsame, hstart⟩ hqueue)

/-- What is chosen is a candidate of the queue, and the others are left in their order. -/
theorem choose_eq_some {queue : List (Request × Bool)} {q : Request × Bool}
    {others : List (Request × Bool)} (h : choose queue = some (q, others)) :
    q.2 = true ∧ ∃ front back, queue = front ++ q :: back ∧ others = front ++ back := by
  rw [choose] at h
  rcases (Option.orElse_eq_some _ _ _).mp h with h | ⟨_, h⟩
  · obtain ⟨hq, front, back, h₁, h₂, _⟩ := takeFirst?_eq_some h
    exact ⟨(Bool.and_eq_true_iff.mp hq).1, front, back, h₁, h₂⟩
  · obtain ⟨hq, front, back, h₁, h₂, _⟩ := takeFirst?_eq_some h
    exact ⟨hq, front, back, h₁, h₂⟩

/-- The controller after a request has been started. -/
def launch (c : Controller) (r : Request) : Controller :=
  { c with
    banks := c.banks.modify r.bank
      fun b => { b with openRow? := some r.row }.reserve r.id r.plan.bank
    channel := c.channel.reserve r.id r.plan
    ongoing := c.ongoing ++ [r] }

@[simp] theorem launch_banks_size (c : Controller) (r : Request) :
    (c.launch r).banks.size = c.banks.size := by simp [launch]

theorem start_eq {c : Controller} {now : Nat} {r : Request} (h : c.Startable now r) :
    c.start r = .ok (c.launch r) := by
  obtain ⟨b, hb, hstatus⟩ := h.status
  obtain ⟨hlt, rfl⟩ := Array.getElem?_eq_some_iff.mp hb
  rw [start, bank_eq hlt, hstatus]
  have hput := putBank_eq hlt fun b => { b with openRow? := some r.row }.reserve r.id r.plan.bank
  simp only [bind, Except.bind, Bank.performAll_phases, hput]
  rfl

/-- What a cycle makes of the waiting requests: it starts none, or it takes one out of the queue
and starts it. All of them are planned anew at most. -/
inductive Scheduled (c : Controller) (now : Nat) : Option Request → Controller → Prop
  | none (queue : List Request) (h : List.Forall₂ Replanned c.pending queue) :
    Scheduled c now none { c with pending := queue }
  | some (r : Request) (front back : List Request)
      (h : List.Forall₂ Replanned c.pending (front ++ r :: back)) (hr : c.Startable now r) :
    Scheduled c now (some r) ({ c with pending := front ++ back }.launch r)

theorem schedule_spec {c : Controller} {live : List Request} (hc : c.Holds live) (now : Nat)
    (h : ∀ r ∈ c.pending, r.bank < c.banks.size) :
    Ends (c.schedule now) Overflows fun r => c.Scheduled now r.1 r.2 := by
  rw [schedule]
  apply Ends.bind' (survey_spec hc now c.pending h)
  intro queue hqueue
  have hsame : List.Forall₂ Replanned c.pending (queue.map Prod.fst) := by
    rw [List.forall₂_map_right_iff]
    exact hqueue.imp fun _ _ h => h.same
  cases hchoose : choose queue with
  | none => exact Ends.pure' (.none _ hsame)
  | some chosen =>
    obtain ⟨⟨r, candidate⟩, others⟩ := chosen
    obtain ⟨hcand, front, back, rfl, rfl⟩ := choose_eq_some hchoose
    have hr : c.Startable now r := startable_of_mem hqueue _ (by simp) hcand
    have hr' : { c with pending := front.map Prod.fst ++ back.map Prod.fst }.Startable now r :=
      ⟨hr.status, hr.plan, hr.candidate⟩
    simp only [List.map_append, List.map_cons] at hsame ⊢
    apply Ends.bind_ok (start_eq hr')
    exact Ends.pure' (Scheduled.some r _ _ hsame hr)

end Controller

end MemoryHierarchy.Dram
