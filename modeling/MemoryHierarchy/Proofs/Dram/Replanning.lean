import MemoryHierarchy.Proofs.Dram.Selection

/-!
Which waiting requests a cycle plans anew.

The pass over the queue stops at the first row hit that could start (`Swept`), and that request
is then the one that starts. So the requests ahead of it, or all of them if there is none, wait on
with a plan for this cycle; the ones that it passes wait on as they were (`Refreshed`). Whether
every waiting request has its plan for this cycle depends on those alone (`refreshed_all_iff`).
-/

namespace MemoryHierarchy.Dram.Controller

variable {c : Controller} {now : Nat} {r s w : Request} {started? : Option Request}

/-! ## The pass -/

/-- A request planned anew that does not end the pass. -/
structure Missed (c : Controller) (now : Nat) (r : Request) (q : Request × Bool) : Prop where
  planned : c.PlannedAt now r q.1
  goesOn : (q.2 && q.1.status == .hit) = false

/-- How a pass over the queue ends: behind the last request, or at a row hit that could start. -/
inductive Swept (c : Controller) (now : Nat) : List Request → List (Request × Bool) → Prop
  | through {waiting : List Request} {queue : List (Request × Bool)}
      (h : List.Forall₂ (c.Missed now) waiting queue) : Swept c now waiting queue
  | cut {front rest : List Request} {queue : List (Request × Bool)} {r w : Request}
      (h : List.Forall₂ (c.Missed now) front queue) (hplan : c.PlannedAt now r w)
      (hhit : w.status = .hit) :
      Swept c now (front ++ r :: rest) (queue ++ (w, true) :: rest.map (·, false))

theorem Swept.cons {q : Request × Bool} {waiting : List Request} {queue : List (Request × Bool)}
    (hr : c.Missed now r q) (h : c.Swept now waiting queue) :
    c.Swept now (r :: waiting) (q :: queue) := by
  cases h with
  | through h => exact .through (.cons hr h)
  | cut h hplan hhit => exact .cut (.cons hr h) hplan hhit

theorem survey_swept (now : Nat) : ∀ waiting : List Request,
    (∀ r ∈ waiting, r.bank < c.banks.size) →
      Ends (c.survey now waiting) (fun _ => True) (c.Swept now waiting)
  | [], _ => .through .nil
  | r :: rest, h => by
    have hr := h r List.mem_cons_self
    rw [survey]
    apply Ends.bind' ((replan_plannedAt now hr).faults fun _ _ => trivial)
    intro s hs
    apply Ends.bind' Ends.any
    intro candidate _
    apply Ends.ite'
    · intro hstop
      obtain ⟨rfl, hhit⟩ := Bool.and_eq_true_iff.mp hstop
      exact Ends.pure' (Swept.cut .nil hs (eq_of_beq hhit))
    · intro hgo
      apply Ends.bind' (survey_swept now rest fun t ht => h t (List.mem_cons_of_mem _ ht))
      intro queue hqueue
      exact Ends.pure' (hqueue.cons ⟨hs, Bool.eq_false_iff.mpr hgo⟩)

theorem none_ends_pass {waiting : List Request} {queue : List (Request × Bool)}
    (h : List.Forall₂ (c.Missed now) waiting queue) :
    ∀ q ∈ queue, (q.2 && q.1.status == .hit) = false := by
  induction h with
  | nil => simp
  | cons hr _ ih =>
    intro q hq
    rcases List.mem_cons.mp hq with rfl | hq
    · exact hr.goesOn
    · exact ih q hq

theorem planned_fst {waiting : List Request} {queue : List (Request × Bool)}
    (h : List.Forall₂ (c.Missed now) waiting queue) :
    List.Forall₂ (c.PlannedAt now) waiting (queue.map Prod.fst) := by
  rw [List.forall₂_map_right_iff]
  exact h.imp fun _ _ h => h.planned

theorem map_id_planned {waiting queue : List Request}
    (h : List.Forall₂ (c.PlannedAt now) waiting queue) :
    queue.map (·.id) = waiting.map (·.id) := by
  induction h with
  | nil => rfl
  | cons hr _ ih => rw [List.map_cons, List.map_cons, ih, hr.id_eq]

/-- Without the request that was started, the queue is planned as before. -/
theorem planned_others {waiting front back : List Request} (hids : (waiting.map (·.id)).Nodup)
    (h : List.Forall₂ (c.PlannedAt now) waiting (front ++ w :: back)) :
    List.Forall₂ (c.PlannedAt now) (waiting.filter fun r => r.id != w.id) (front ++ back) := by
  rw [← map_id_planned h] at hids
  rw [← filter_id_ne hids]
  apply List.rel_filter _ h
  intro r s hs
  simp only [hs.id_eq]

/-! ## The requests that wait on -/

/-- Whether a request waits behind the row hit that a cycle starts. -/
def Passed (started? : Option Request) (r : Request) : Prop :=
  ∃ w, started? = some w ∧ w.status = .hit ∧ w.id < r.id

/-- The waiting requests that a cycle does not start. -/
def waitingOn (c : Controller) (started? : Option Request) : List Request :=
  c.pending.filter fun r => started?.all fun w => r.id != w.id

/-- What a cycle makes of a request that waits on: it is planned for this cycle, unless it waits
behind the row hit that the cycle starts; then it stays as it is. -/
structure Refreshed (c : Controller) (now : Nat) (started? : Option Request) (r s : Request) :
    Prop where
  planned : ¬Passed started? r → c.PlannedAt now r s
  kept : Passed started? r → s = r

theorem refreshed_of_planned {waiting queue : List Request}
    (hpassed : ∀ r ∈ waiting, ¬Passed started? r)
    (h : List.Forall₂ (c.PlannedAt now) waiting queue) :
    List.Forall₂ (c.Refreshed now started?) waiting queue := by
  apply ((List.forall₂_and_left waiting queue).mpr ⟨hpassed, h⟩).imp
  intro r s hr
  exact ⟨fun _ => hr.2, fun hpassed => absurd hpassed hr.1⟩

theorem refreshed_of_kept {waiting : List Request} (hpassed : ∀ r ∈ waiting, Passed started? r) :
    List.Forall₂ (c.Refreshed now started?) waiting waiting := by
  apply List.forall₂_same.mpr
  intro r hr
  exact ⟨fun hnot => absurd (hpassed r hr) hnot, fun _ => rfl⟩

/-- A start that is no row hit passes nothing. -/
theorem not_passed_of_not_hit (h : ∀ w, started? = some w → w.status ≠ .hit) (r : Request) :
    ¬Passed started? r := by
  rintro ⟨w, hw, hhit, -⟩
  exact h w hw hhit

/-- The row hit that ends the pass is the one to start. -/
theorem choose_cut {front : List Request} {queue : List (Request × Bool)}
    (h : List.Forall₂ (c.Missed now) front queue) (hhit : w.status = .hit)
    (rest : List (Request × Bool)) :
    choose (queue ++ (w, true) :: rest) = some ((w, true), queue ++ rest) := by
  rw [choose, takeFirst?_append (none_ends_pass h) (by simp [hhit])]
  rfl

theorem refreshed_of_cut {front rest planned : List Request}
    (hids : ((front ++ r :: rest).map (·.id)).Pairwise (· < ·))
    (h : List.Forall₂ (c.PlannedAt now) front planned) (hid : w.id = r.id)
    (hhit : w.status = .hit) :
    List.Forall₂ (c.Refreshed now (some w)) (front ++ rest) (planned ++ rest) := by
  rw [List.map_append, List.map_cons, List.pairwise_append, List.pairwise_cons] at hids
  obtain ⟨-, ⟨hrest, -⟩, hfront⟩ := hids
  apply List.rel_append
  · apply refreshed_of_planned _ h
    rintro t ht ⟨w', hw', -, hlt⟩
    have hahead := hfront t.id (List.mem_map_of_mem ht) r.id List.mem_cons_self
    rw [← Option.some.inj hw', hid] at hlt
    omega
  · apply refreshed_of_kept
    intro t ht
    exact ⟨w, rfl, hhit, hid ▸ hrest t.id (List.mem_map_of_mem ht)⟩

theorem start_pending (c : Controller) (r : Request) :
    Ends (c.start r) (fun _ => True) fun c' => c'.pending = c.pending := by
  rw [start]
  apply Ends.bind' Ends.any
  intro b _
  apply Ends.bind' Ends.any
  intro opened _
  exact Ends.pure' rfl

/-- The requests that wait on keep their order, and each is refreshed. -/
theorem schedule_refreshes (h : c.Sound) (ho : c.Ordered) (now : Nat) :
    Ends (c.schedule now) (fun _ => True) fun q =>
      List.Forall₂ (c.Refreshed now q.1) (c.waitingOn q.1) q.2.pending := by
  have hids : (c.pending.map (·.id)).Pairwise (· < ·) := ho
  rw [schedule]
  apply Ends.bind' (survey_swept now c.pending h.pending_bank_lt)
  intro queue hswept
  simp only [waitingOn]
  generalize c.pending = waiting at hswept hids
  cases hswept with
  | through hqueue =>
    cases hchoose : choose queue with
    | none =>
      apply Ends.pure'
      rw [List.filter_eq_self.mpr (by simp)]
      exact refreshed_of_planned (fun r _ => not_passed_of_not_hit (by simp) r)
        (planned_fst hqueue)
    | some chosen =>
      obtain ⟨⟨w, candidate⟩, others⟩ := chosen
      obtain ⟨hcand, front, back, rfl, rfl⟩ := choose_eq_some hchoose
      have hplanned := planned_fst hqueue
      rw [List.map_append, List.map_cons] at hplanned
      have hmiss : w.status ≠ .hit := by
        have hgo := none_ends_pass hqueue (w, candidate) (by simp)
        simpa [show candidate = true from hcand] using hgo
      apply Ends.bind' (start_pending _ w)
      intro c' hc'
      apply Ends.pure'
      rw [hc', List.map_append]
      apply refreshed_of_planned _ (planned_others (hids.imp Nat.ne_of_lt) hplanned)
      intro r _
      apply not_passed_of_not_hit
      intro w' hw'
      rw [← Option.some.inj hw']
      exact hmiss
  | @cut front rest planned r w hqueue hplan hhit =>
    rw [choose_cut hqueue hhit]
    have hothers : (front ++ r :: rest).filter (fun s => s.id != w.id) = front ++ rest := by
      rw [hplan.id_eq]
      exact filter_id_ne (hids.imp Nat.ne_of_lt)
    apply Ends.bind' (start_pending _ w)
    intro c' hc'
    apply Ends.pure'
    simp only [Option.all_some, hothers, hc', List.map_append, List.map_map]
    rw [show rest.map (Prod.fst ∘ (·, false)) = rest from List.map_id rest]
    exact refreshed_of_cut hids (planned_fst hqueue) hplan.id_eq hhit

/-- A plan locks the bank from its cycle on. -/
theorem compute_start (t : Timing) (now : Nat) (status : RowStatus) :
    Ends (Plan.compute t now status) (fun _ => True) fun plan => plan.bank.start = now := by
  have hending (precharge? activate? : Option Interval) (last : PhaseSlots) :
      Ends (Plan.endingWith t now precharge? activate? last) (fun _ => True)
        fun plan => plan.bank.start = now :=
    Ends.bind' Ends.any fun _ _ => Ends.pure' rfl
  cases status with
  | hit => exact Ends.bind' Ends.any fun _ _ => hending _ _ _
  | miss => exact Ends.bind' Ends.any fun _ _ => Ends.bind' Ends.any fun _ _ => hending _ _ _
  | conflict =>
    exact Ends.bind' Ends.any fun _ _ => Ends.bind' Ends.any fun _ _ =>
      Ends.bind' Ends.any fun _ _ => hending _ _ _

theorem PlannedAt.start_eq (h : c.PlannedAt now r s) : s.plan.bank.start = now := by
  obtain ⟨b, plan, -, hplan, rfl⟩ := h
  exact (compute_start c.timing now (b.status r.row)).of_ok hplan

theorem PlannedAt.self (h : c.PlannedAt now r s) : c.PlannedAt now s s := by
  obtain ⟨b, plan, hb, hplan, rfl⟩ := h
  exact ⟨b, plan, hb, hplan, rfl⟩

theorem Refreshed.planned_iff (h : c.Refreshed now started? r s) :
    c.PlannedAt now s s ↔ (Passed started? r → c.PlannedAt now r r) := by
  by_cases hpassed : Passed started? r
  · rw [h.kept hpassed]
    exact ⟨fun h _ => h, fun h => h hpassed⟩
  · exact iff_of_true (h.planned hpassed).self fun hr => absurd hr hpassed

theorem Passed.mem_waitingOn (hpassed : Passed started? r) (hr : r ∈ c.pending) :
    r ∈ c.waitingOn started? := by
  obtain ⟨w, rfl, -, hlt⟩ := hpassed
  exact List.mem_filter.mpr ⟨hr, bne_iff_ne.mpr (Nat.ne_of_gt hlt)⟩

theorem forall_planned_iff {waiting queue : List Request}
    (h : List.Forall₂ (c.Refreshed now started?) waiting queue) :
    (∀ s ∈ queue, c.PlannedAt now s s)
      ↔ ∀ r ∈ waiting, Passed started? r → c.PlannedAt now r r := by
  induction h with
  | nil => simp
  | cons hr _ ih => rw [List.forall_mem_cons, List.forall_mem_cons, hr.planned_iff, ih]

/-- Every waiting request has its plan for this cycle exactly if those that the started row hit
passes had it before. -/
theorem refreshed_all_iff {queue : List Request}
    (h : List.Forall₂ (c.Refreshed now started?) (c.waitingOn started?) queue) :
    (∀ s ∈ queue, c.PlannedAt now s s)
      ↔ ∀ r ∈ c.pending, Passed started? r → c.PlannedAt now r r := by
  rw [forall_planned_iff h]
  constructor
  · exact fun hall r hr hpassed => hall r (hpassed.mem_waitingOn hr) hpassed
  · exact fun hall r hr => hall r (List.mem_filter.mp hr).1

/-! ## Runs -/

/-- A controller whose banks have no mask queues nothing. -/
theorem run_unmaskable {config : Config.Dram} (hbanks : ¬∃ k, config.banks.toNat = twoPow k)
    (lineBytes : Nat) (calls : List Call) :
    Ends (record perform (idle config lineBytes) calls) (fun _ => True) fun r =>
      r.2.pending = [] ∧ r.2.ongoing = [] := by
  have hrun : Ends (record perform (idle config lineBytes) calls) (fun _ => True) fun r =>
      r.2.banks.size = config.banks.toNat ∧ r.2.pending = [] ∧ r.2.ongoing = [] := by
    apply Ends.record (fun _ _ (c : Controller) =>
      c.banks.size = config.banks.toNat ∧ c.pending = [] ∧ c.ongoing = []) ?_ calls []
      (idle config lineBytes) ⟨by simp [idle], rfl, rfl⟩
    intro call _ past c h
    obtain ⟨hsize, hidle⟩ := h
    cases call with
    | add block arrival =>
      have hindex : exponent? c.banks.size = none := by
        rw [hsize, exponent?_eq_none_iff]
        exact fun k hk => hbanks ⟨k, hk⟩
      have hindexFaults : Ends (c.bankIndex block.address) (fun _ => True) fun _ => False := by
        rw [bankIndex, hindex]
        trivial
      have hfaults : Ends (c.add block arrival) (fun _ => True) fun _ => False :=
        Ends.bind' hindexFaults fun _ h => h.elim
      exact Ends.bind' hfaults fun _ h => h.elim
    | tick now =>
      apply Ends.bind_ok (tick_idle hidle now)
      exact Ends.pure' ⟨hsize, hidle⟩
  exact hrun.weaken fun _ h => h.2

theorem retire_idle (hidle : c.pending = [] ∧ c.ongoing = []) (now : Nat) :
    c.retire now = .ok ([], c) := by
  obtain ⟨banks, channel, pending, ongoing, timing, bankShift, rowShift, nextId⟩ := c
  obtain ⟨rfl, rfl⟩ := hidle
  rfl

/-- **Planning anew.** Whatever has been asked of a controller, and whichever cycle comes: of
the waiting requests that the cycle does not start, those behind a row hit that it starts stay as
they are, and all others are planned for this cycle, against the row that their bank has open
once the cycle has retired what has ended. So every waiting request is planned for this cycle
exactly if those behind a started row hit were so before. A run goes through unless a number does
not fit its word or the banks have no mask. -/
theorem tick_replans (config : Config.Dram) (lineBytes : Nat) (calls : List Call) (now : Nat) :
    Ends (record perform (idle config lineBytes) calls)
      (fun f => (∃ k, config.banks.toNat = twoPow k) → f = .overflow) fun r =>
      ∃ retired mid, r.2.retire now = .ok (retired, mid) ∧
        Ends (r.2.tick now) Overflows fun q =>
          List.Forall₂ (mid.Refreshed now q.1.started?) (mid.waitingOn q.1.started?) q.2.pending
            ∧ ((∀ s ∈ q.2.pending, mid.PlannedAt now s s)
              ↔ ∀ r ∈ mid.pending, Passed q.1.started? r → mid.PlannedAt now r r) := by
  by_cases hbanks : ∃ k, config.banks.toNat = twoPow k
  · obtain ⟨k, hk⟩ := hbanks
    apply Ends.mono (run_ordered (idle_sound hk) List.Pairwise.nil calls) fun f hf _ => hf
    intro r hr
    obtain ⟨hsound, hordered⟩ := hr
    have hmid := hsound.afterRetire now
    refine ⟨_, _, retire_eq now hsound.ongoing_bank_lt, ?_⟩
    rw [tick]
    apply Ends.bind_ok (retire_eq now hsound.ongoing_bank_lt)
    apply Ends.bind' ((schedule_spec hmid.holds now hmid.pending_bank_lt).also
      (schedule_refreshes hmid (hordered.afterRetire now) now))
    intro q hq
    exact Ends.pure' ⟨hq.2, refreshed_all_iff hq.2⟩
  · apply Ends.mono (run_unmaskable hbanks lineBytes calls) fun f _ h => absurd h hbanks
    intro r hr
    have hnone : List.Forall₂ (r.2.Refreshed now none) (r.2.waitingOn none) r.2.pending := by
      rw [waitingOn, hr.1]
      exact .nil
    exact ⟨[], r.2, retire_idle hr now,
      Ends.ok (tick_idle hr now) ⟨hnone, refreshed_all_iff hnone⟩⟩

/-- A row hit starts at cycle 12, and the request behind it waits on with its plan for cycle 9. -/
theorem tick_replans_stale :
    ∃ r q, record perform
        (idle { banks := 2, commandCycles := 1, bankBusyCycles := 4, dataCycles := 2 } 32)
        [.add ⟨0, .data⟩ 0, .tick 0, .add ⟨64, .data⟩ 9, .add ⟨32, .data⟩ 9] = .ok r
      ∧ r.2.tick 12 = .ok q
      ∧ q.1.started?.map (fun w => (w.id, w.status)) = some (1, .hit)
      ∧ q.2.pending.map (fun s => (s.id, s.plan.bank.start)) = [(2, 9)]
      ∧ ∃ retired mid, r.2.retire 12 = .ok (retired, mid)
        ∧ ¬∀ s ∈ q.2.pending, mid.PlannedAt 12 s s := by
  have hruns := tick_replans
    { banks := 2, commandCycles := 1, bankBusyCycles := 4, dataCycles := 2 } 32
    [.add ⟨0, .data⟩ 0, .tick 0, .add ⟨64, .data⟩ 9, .add ⟨32, .data⟩ 9] 12
  obtain ⟨retired, mid, hretire, -⟩ := hruns.of_ok rfl
  refine ⟨_, _, rfl, rfl, rfl, rfl, retired, mid, hretire, ?_⟩
  intro hall
  have hstart := (hall _ List.mem_cons_self).start_eq
  exact absurd hstart (by decide)

end MemoryHierarchy.Dram.Controller
