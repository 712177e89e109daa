import MemoryHierarchy.Proofs.Dram.Progress

/-!
Which waiting request a cycle starts.

A waiting request is eligible if its plan for this cycle conflicts with no request under way
(`Eligible`). `Pass` says what one pass over the queue notes, `Pass.eligible` and `Pass.noted`
compare that with eligibility: a candidate is eligible, and an eligible request is noted unless a
row hit ahead of it ended the pass. With numbers that increase along the queue (`Ordered`) the
choice from the notes is the choice from all eligible requests (`schedule_best`).

The candidate test itself looks at reservations and not at requests. Over any run it is the test
for conflicts with the requests under way, whatever request is put to it (`candidates_free`).
-/

namespace MemoryHierarchy

/-- What is taken out of an ordered list comes before all others that pass the test. -/
theorem takeFirst?_first {α : Type} {R : α → α → Prop} {test : α → Bool} {l others : List α}
    {a b : α} (hl : l.Pairwise R) (h : takeFirst? test l = some (a, others)) (hb : b ∈ l)
    (htest : test b = true) : b = a ∨ R a b := by
  obtain ⟨-, front, back, rfl, -, hfront⟩ := takeFirst?_eq_some h
  rcases List.mem_append.mp hb with hb | hb
  · rw [hfront b hb] at htest
    cases htest
  · rcases List.mem_cons.mp hb with rfl | hb
    · exact .inl rfl
    · have htail := (List.pairwise_append.mp hl).2.1
      exact .inr ((List.pairwise_cons.mp htail).1 b hb)

namespace Dram.Controller

variable {c c' : Controller} {now : Nat} {r s w : Request} {started? : Option Request}

/-! ## Eligible requests -/

/-- A request as it is planned for cycle `now`, against the row that its bank has open. -/
def PlannedAt (c : Controller) (now : Nat) (r s : Request) : Prop :=
  ∃ b plan, c.banks[r.bank]? = some b
    ∧ Plan.compute c.timing now (b.status r.row) = .ok plan
    ∧ s = { r with status := b.status r.row, plan }

/-- No request under way stands against this one. -/
def Free (c : Controller) (s : Request) : Prop := ∀ o ∈ c.ongoing, o.conflictsWith s = false

/-- A waiting request, as it is planned for cycle `now`, that could start. -/
structure Eligible (c : Controller) (now : Nat) (s : Request) : Prop where
  waits : ∃ r ∈ c.pending, c.PlannedAt now r s
  free : c.Free s

theorem PlannedAt.id_eq (h : c.PlannedAt now r s) : s.id = r.id := by
  obtain ⟨b, plan, -, -, rfl⟩ := h
  rfl

theorem PlannedAt.bank_eq (h : c.PlannedAt now r s) : s.bank = r.bank := by
  obtain ⟨b, plan, -, -, rfl⟩ := h
  rfl

theorem PlannedAt.unique (h : c.PlannedAt now r s) (h' : c.PlannedAt now r w) : s = w := by
  obtain ⟨b, plan, hb, hplan, rfl⟩ := h
  obtain ⟨b', plan', hb', hplan', rfl⟩ := h'
  obtain rfl : b = b' := Option.some.inj (hb.symm.trans hb')
  obtain rfl : plan = plan' := Except.ok.inj (hplan.symm.trans hplan')
  rfl

theorem replan_plannedAt (now : Nat) (h : r.bank < c.banks.size) :
    Ends (c.replan now r) Overflows (c.PlannedAt now r) := by
  rw [replan, Controller.bank_eq h]
  apply Ends.bind' (Plan.compute_spec _ _ _).and_eq
  intro plan hplan
  exact Ends.pure' ⟨_, plan, Array.getElem?_eq_getElem h, hplan.2, rfl⟩

theorem isCandidate_free (hc : c.Holds c.ongoing) (hs : s.bank < c.banks.size) :
    ∃ candidate, c.isCandidate s = .ok candidate ∧ (candidate = true ↔ c.Free s) := by
  refine ⟨_, isCandidate_eq hc hs, ?_⟩
  simp [Free, List.all_eq_true]

/-! ## The pass over the queue -/

/-- What a pass over the queue notes: each request with its new plan and whether it could start,
up to the first row hit that could. The requests behind that one keep their old plans. -/
inductive Pass (c : Controller) (now : Nat) : List Request → List (Request × Bool) → Prop
  | nil : Pass c now [] []
  | stop (r s : Request) (rest : List Request) (hplan : c.PlannedAt now r s) (hfree : c.Free s)
      (hhit : s.status = .hit) : Pass c now (r :: rest) ((s, true) :: rest.map (·, false))
  | go (r s : Request) (rest : List Request) (candidate : Bool) (queue : List (Request × Bool))
      (hplan : c.PlannedAt now r s) (hfree : candidate = true ↔ c.Free s)
      (hpass : Pass c now rest queue) : Pass c now (r :: rest) ((s, candidate) :: queue)

theorem survey_pass (hc : c.Holds c.ongoing) (now : Nat) :
    ∀ queue : List Request, (∀ r ∈ queue, r.bank < c.banks.size) →
      Ends (c.survey now queue) Overflows (c.Pass now queue)
  | [], _ => .nil
  | r :: rest, h => by
    have hr := h r List.mem_cons_self
    rw [survey]
    apply Ends.bind' (replan_plannedAt now hr)
    intro s hs
    obtain ⟨candidate, hcand, hfree⟩ := isCandidate_free hc (hs.bank_eq ▸ hr)
    apply Ends.bind_ok hcand
    apply Ends.ite'
    · intro hstop
      simp only [Bool.and_eq_true, beq_iff_eq] at hstop
      exact Ends.pure' (.stop r s rest hs (hfree.mp hstop.1) hstop.2)
    · intro _
      apply Ends.bind' (survey_pass hc now rest fun t ht => h t (List.mem_cons_of_mem _ ht))
      intro queue hqueue
      exact Ends.pure' (.go r s rest candidate queue hs hfree hqueue)

namespace Pass

variable {waiting : List Request} {queue : List (Request × Bool)} {q : Request × Bool}

theorem ids (h : c.Pass now waiting queue) :
    queue.map (·.1.id) = waiting.map (·.id) := by
  induction h with
  | nil => rfl
  | stop r s rest hplan => simp [hplan.id_eq]
  | go r s rest candidate queue hplan _ _ ih => simp [hplan.id_eq, ih]

/-- What is noted as a candidate could start. -/
theorem eligible (h : c.Pass now waiting queue) (hq : q ∈ queue) (hcand : q.2 = true) :
    (∃ r ∈ waiting, c.PlannedAt now r q.1) ∧ c.Free q.1 := by
  induction h with
  | nil => cases hq
  | stop r s rest hplan hfree =>
    rcases List.mem_cons.mp hq with rfl | hq
    · exact ⟨⟨r, List.mem_cons_self, hplan⟩, hfree⟩
    · -- what is behind a row hit is noted as no candidate
      obtain ⟨t, -, rfl⟩ := List.mem_map.mp hq
      cases hcand
  | go r s rest candidate queue hplan hfree _ ih =>
    rcases List.mem_cons.mp hq with rfl | hq
    · exact ⟨⟨r, List.mem_cons_self, hplan⟩, hfree.mp hcand⟩
    · obtain ⟨⟨t, ht, hplan⟩, hfree⟩ := ih hq
      exact ⟨⟨t, List.mem_cons_of_mem _ ht, hplan⟩, hfree⟩

/-- What could start is noted as a candidate, or a row hit ahead of it is. -/
theorem noted (h : c.Pass now waiting queue) (hids : (waiting.map (·.id)).Pairwise (· < ·))
    (hr : r ∈ waiting) (hs : c.PlannedAt now r s) (hfree : c.Free s) :
    (s, true) ∈ queue ∨ ∃ t, (t, true) ∈ queue ∧ t.status = .hit ∧ t.id < s.id := by
  induction h with
  | nil => cases hr
  | stop r' s' rest hplan _ hhit =>
    rcases List.mem_cons.mp hr with rfl | hr
    · exact .inl (hs.unique hplan ▸ List.mem_cons_self)
    · have hlt : r'.id < r.id := (List.pairwise_cons.mp hids).1 _ (List.mem_map_of_mem hr)
      rw [← hplan.id_eq, ← hs.id_eq] at hlt
      exact .inr ⟨s', List.mem_cons_self, hhit, hlt⟩
  | go r' s' rest candidate queue hplan hiff _ ih =>
    rcases List.mem_cons.mp hr with rfl | hr
    · obtain rfl := hs.unique hplan
      rw [hiff.mpr hfree]
      exact .inl List.mem_cons_self
    · rcases ih (List.pairwise_cons.mp hids).2 hr with hmem | ⟨t, hmem, ht⟩
      · exact .inl (List.mem_cons_of_mem _ hmem)
      · exact .inr ⟨t, List.mem_cons_of_mem _ hmem, ht⟩

end Pass

/-! ## The choice -/

/-- The numbers of the waiting requests increase along the queue. -/
def Ordered (c : Controller) : Prop := (c.pending.map (·.id)).Pairwise (· < ·)

/-- What may be started of some requests: the oldest row hit, or the oldest of all if none of them
hits its row. -/
def Best (among : Request → Prop) (w : Request) : Prop :=
  among w ∧ ((w.status = .hit ∧ ∀ s, among s → s.status = .hit → w.id ≤ s.id)
    ∨ ((∀ s, among s → s.status ≠ .hit) ∧ ∀ s, among s → w.id ≤ s.id))

/-- Nothing is chosen exactly if there is no candidate. -/
theorem choose_eq_none {queue : List (Request × Bool)} :
    choose queue = none ↔ ∀ q ∈ queue, q.2 = false := by
  rw [choose, Option.orElse_eq_none, takeFirst?_eq_none_iff, takeFirst?_eq_none_iff]
  constructor
  · exact fun h => h.2
  · intro h
    exact ⟨fun q hq => by simp [h q hq], h⟩

/-- The choice is the best candidate. -/
theorem choose_best {queue others : List (Request × Bool)} {q : Request × Bool}
    (hids : queue.Pairwise fun q q' => q.1.id < q'.1.id) (h : choose queue = some (q, others)) :
    Best (fun s => (s, true) ∈ queue) q.1 := by
  obtain ⟨hcand, front, back, hsplit, -⟩ := choose_eq_some h
  have hmem : (q.1, true) ∈ queue := by
    rw [← hcand, hsplit]
    simp
  refine ⟨hmem, ?_⟩
  rw [choose] at h
  rcases (Option.orElse_eq_some _ _ _).mp h with h | ⟨hnone, h⟩
  · left
    constructor
    · have htest := (takeFirst?_eq_some h).1
      simp only [Bool.and_eq_true, beq_iff_eq] at htest
      exact htest.2
    · intro s hs hhit
      rcases takeFirst?_first hids h hs (by simp [hhit]) with heq | hlt
      · exact Nat.le_of_eq (congrArg (·.1.id) heq.symm)
      · exact Nat.le_of_lt hlt
  · right
    constructor
    · intro s hs hhit
      have htest := takeFirst?_eq_none_iff.mp hnone _ hs
      simp [hhit] at htest
    · intro s hs
      rcases takeFirst?_first hids h hs rfl with heq | hlt
      · exact Nat.le_of_eq (congrArg (·.1.id) heq.symm)
      · exact Nat.le_of_lt hlt

/-- The best of the noted candidates is the best of all requests that could start. -/
theorem Pass.best {queue : List (Request × Bool)} (h : c.Pass now c.pending queue)
    (ho : c.Ordered) (hw : Best (fun s => (s, true) ∈ queue) w) : Best (c.Eligible now) w := by
  obtain ⟨hmem, hbest⟩ := hw
  have heligible : c.Eligible now w := ⟨(h.eligible hmem rfl).1, (h.eligible hmem rfl).2⟩
  have hnoted : ∀ s, c.Eligible now s →
      (s, true) ∈ queue ∨ ∃ t, (t, true) ∈ queue ∧ t.status = .hit ∧ t.id < s.id := by
    intro s hs
    obtain ⟨r, hr, hplan⟩ := hs.waits
    exact h.noted ho hr hplan hs.free
  refine ⟨heligible, ?_⟩
  rcases hbest with ⟨hhit, hleast⟩ | ⟨hnone, hleast⟩
  · refine .inl ⟨hhit, ?_⟩
    intro s hs hshit
    rcases hnoted s hs with hmem | ⟨t, hmem, hthit, hlt⟩
    · exact hleast s hmem hshit
    · have hle := hleast t hmem hthit
      omega
  · -- Without a row hit among the notes the pass went to the end, so all are noted.
    have hall : ∀ s, c.Eligible now s → (s, true) ∈ queue := by
      intro s hs
      rcases hnoted s hs with hmem | ⟨t, hmem, hthit, -⟩
      · exact hmem
      · exact absurd hthit (hnone t hmem)
    exact .inr ⟨fun s hs => hnone s (hall s hs), fun s hs => hleast s (hall s hs)⟩

/-- A cycle starts nothing if nothing could start, and the best request otherwise. -/
theorem schedule_best (h : c.Sound) (ho : c.Ordered) (now : Nat) :
    Ends (c.schedule now) (fun _ => True) fun q =>
      (q.1 = none ↔ ∀ s, ¬c.Eligible now s) ∧ ∀ w, q.1 = some w → Best (c.Eligible now) w := by
  rw [schedule]
  apply Ends.bind' ((survey_pass h.holds now c.pending h.pending_bank_lt).faults
    fun _ _ => trivial)
  intro queue hpass
  cases hchoose : choose queue with
  | none =>
    apply Ends.pure'
    refine ⟨iff_of_true rfl ?_, by simp⟩
    intro s hs
    have hnone := choose_eq_none.mp hchoose
    obtain ⟨r, hr, hplan⟩ := hs.waits
    rcases hpass.noted ho hr hplan hs.free with hmem | ⟨t, hmem, -⟩
    · cases hnone _ hmem
    · cases hnone _ hmem
  | some chosen =>
    obtain ⟨⟨w, candidate⟩, others⟩ := chosen
    have hids : queue.Pairwise fun q q' => q.1.id < q'.1.id := by
      rw [← List.pairwise_map (f := fun q : Request × Bool => q.1.id), hpass.ids]
      exact ho
    have hbest : Best (c.Eligible now) w := hpass.best ho (choose_best hids hchoose)
    apply Ends.bind' Ends.any
    intro started _
    apply Ends.pure'
    refine ⟨iff_of_false (by simp) ?_, ?_⟩
    · intro hnone
      exact hnone w hbest.1
    · intro w' hw'
      rw [← Option.some.inj hw']
      exact hbest

/-! ## Queues in the order of arrival -/

theorem Ordered.add (h : c.Sound) (ho : c.Ordered) (hid : r.id = c.nextId) :
    { c with pending := c.pending ++ [r], nextId := c.nextId + 1 }.Ordered := by
  rw [Ordered, List.map_append, List.pairwise_append]
  refine ⟨ho, List.pairwise_singleton _ _, ?_⟩
  intro i hi j hj
  rw [List.map_singleton, List.mem_singleton, hid] at hj
  rw [hj]
  obtain ⟨s, hs, rfl⟩ := List.mem_map.mp hi
  exact h.ids_lt _ (List.mem_map_of_mem (List.mem_append_right _ hs))

theorem Ordered.afterRetire (ho : c.Ordered) (now : Nat) : (c.afterRetire now).Ordered := by
  rw [Ordered, afterRetire_pending]
  exact ho

/-- Taking the started request out leaves the others in their order. -/
theorem Scheduled.ids_sublist (h : c.Scheduled now started? c') :
    (c'.pending.map (·.id)).Sublist (c.pending.map (·.id)) := by
  cases h with
  | none queue hqueue =>
    rw [← map_replanned (fun _ _ _ => rfl) hqueue]
  | some r front back hqueue =>
    rw [← map_replanned (fun _ _ _ => rfl) hqueue]
    exact ((List.sublist_cons_self r back).append_left front).map _

theorem Ordered.scheduled (ho : c.Ordered) (h : c.Scheduled now started? c') : c'.Ordered :=
  List.Pairwise.sublist h.ids_sublist ho

theorem perform_ordered (h : c.Sound) (ho : c.Ordered) (call : Call) :
    Ends (c.perform call) Overflows fun q => q.2.Sound ∧ q.2.Ordered := by
  cases call with
  | add block arrival =>
    apply Ends.bind' (add_spec h.maskable block arrival)
    intro added hadded
    obtain ⟨heq, hid, -, hbank⟩ := hadded
    apply Ends.pure'
    rw [heq]
    exact ⟨h.add hid hbank, ho.add h hid⟩
  | tick now =>
    apply Ends.bind' (tick_spec h now)
    intro q hq
    exact Ends.pure' ⟨(h.afterRetire now).scheduled hq.2, (ho.afterRetire now).scheduled hq.2⟩

theorem run_ordered (h : c.Sound) (ho : c.Ordered) (calls : List Call) :
    Ends (record perform c calls) Overflows fun q => q.2.Sound ∧ q.2.Ordered :=
  Ends.record (fun _ _ c => c.Sound ∧ c.Ordered)
    (fun call _ _ _ h => perform_ordered h.1 h.2 call) calls [] c ⟨h, ho⟩

/-! ## What else a cycle changes -/

/-- What a cycle makes of the controller that it has retired requests from: it starts the best
request that could start, appends it to those under way, reserves the channel and its bank for
it, opens its row, and leaves everything else as it is. The other requests keep waiting in their
order; only their plans may be new. -/
structure Selects (c : Controller) (now : Nat) (started? : Option Request) (c' : Controller) :
    Prop where
  ordered : (c.pending.map (·.id)).Pairwise (· < ·)
  none_iff : started? = none ↔ ∀ s, ¬c.Eligible now s
  best : ∀ w, started? = some w → Best (c.Eligible now) w
  ongoing : c'.ongoing = c.ongoing ++ started?.toList
  pending : List.Forall₂ Replanned
    (c.pending.filter fun r => started?.all fun w => r.id != w.id) c'.pending
  channel : c'.channel = started?.elim c.channel fun w => c.channel.reserve w.id w.plan
  winnersBank : ∀ w, started? = some w → c'.banks[w.bank]? = c.banks[w.bank]?.map fun b =>
    { b with openRow? := some w.row }.reserve w.id w.plan.bank
  otherBanks : ∀ i, (∀ w, started? = some w → w.bank ≠ i) → c'.banks[i]? = c.banks[i]?
  wiring : c'.wiring = c.wiring
  nextId : c'.nextId = c.nextId

theorem Scheduled.channel_eq (h : c.Scheduled now started? c') :
    c'.channel = started?.elim c.channel fun w => c.channel.reserve w.id w.plan := by
  cases h <;> rfl

theorem Scheduled.winnersBank_eq (h : c.Scheduled now started? c') (hw : started? = .some w) :
    c'.banks[w.bank]? = c.banks[w.bank]?.map fun b =>
      { b with openRow? := .some w.row }.reserve w.id w.plan.bank := by
  cases h with
  | none => cases hw
  | some s front back =>
    obtain rfl := Option.some.inj hw
    rw [launch, Array.getElem?_modify, if_pos rfl]

theorem Scheduled.otherBanks_eq (h : c.Scheduled now started? c') {i : Nat}
    (hi : ∀ w, started? = .some w → w.bank ≠ i) : c'.banks[i]? = c.banks[i]? := by
  cases h with
  | none => rfl
  | some w front back => rw [launch, Array.getElem?_modify, if_neg (hi w rfl)]

/-- Numbers are not given twice, so a number takes one request out. -/
theorem filter_id_ne {front back : List Request}
    (hids : ((front ++ w :: back).map (·.id)).Nodup) :
    (front ++ w :: back).filter (fun r => r.id != w.id) = front ++ back := by
  rw [List.map_append, List.map_cons, List.nodup_middle, List.nodup_cons, ← List.map_append]
    at hids
  rw [List.filter_append, List.filter_cons_of_neg (by simp), ← List.filter_append,
    List.filter_eq_self]
  intro r hr
  have hne : r.id ≠ w.id := fun heq => hids.1 (heq ▸ List.mem_map_of_mem hr)
  simpa using hne

theorem Scheduled.pending_replanned (hids : (c.pending.map (·.id)).Nodup)
    (h : c.Scheduled now started? c') :
    List.Forall₂ Replanned (c.pending.filter fun r => started?.all fun w => r.id != w.id)
      c'.pending := by
  cases h with
  | none queue hqueue => simpa using hqueue
  | some w front back hqueue =>
    have hfilter := List.rel_filter (p := fun r => r.id != w.id) (q := fun r => r.id != w.id)
      (fun r s h => by obtain ⟨_, _, rfl⟩ := h; rfl) hqueue
    rw [← map_replanned (fun _ _ _ => rfl) hqueue] at hids
    rw [filter_id_ne hids] at hfilter
    exact hfilter

theorem Scheduled.selects (h : c.Scheduled now started? c') (ho : c.Ordered)
    (hnone : started? = .none ↔ ∀ s, ¬c.Eligible now s)
    (hbest : ∀ w, started? = .some w → Best (c.Eligible now) w) :
    c.Selects now started? c' where
  ordered := ho
  none_iff := hnone
  best := hbest
  ongoing := h.ongoing_eq
  pending := by
    apply h.pending_replanned
    exact ho.imp Nat.ne_of_lt
  channel := h.channel_eq
  winnersBank := fun w hw => h.winnersBank_eq hw
  otherBanks := fun i hi => h.otherBanks_eq hi
  wiring := h.wiring_eq
  nextId := h.nextId_eq

/-- **First ready, first come, first served.** Whatever has been asked of a controller with a
power-of-two number of banks, and whichever cycle comes: of the waiting requests that conflict with
none under way, the cycle starts the oldest one that hits its row, or the oldest one if none
does. The calls go through unless a number does not fit its word. -/
theorem tick_selects (config : Config.Dram) (lineBytes k : Nat)
    (hbanks : config.banks.toNat = twoPow k) (calls : List Call) (now : Nat) :
    Ends (record perform (idle config lineBytes) calls) Overflows fun r =>
      ∃ retired mid, r.2.retire now = .ok (retired, mid) ∧
        Ends (r.2.tick now) Overflows fun q =>
          q.1.retired = retired ∧ mid.Selects now q.1.started? q.2 := by
  apply (run_ordered (idle_sound hbanks) List.Pairwise.nil calls).weaken
  intro r hr
  obtain ⟨hsound, hordered⟩ := hr
  have hmid := hsound.afterRetire now
  have hmidOrdered := hordered.afterRetire now
  refine ⟨_, _, retire_eq now hsound.ongoing_bank_lt, ?_⟩
  rw [tick]
  apply Ends.bind_ok (retire_eq now hsound.ongoing_bank_lt)
  apply Ends.bind' ((schedule_spec hmid.holds now hmid.pending_bank_lt).also
    (schedule_best hmid hmidOrdered now))
  intro q hq
  exact Ends.pure' ⟨rfl, hq.1.selects hmidOrdered hq.2.1 hq.2.2⟩

/-- A row hit overtakes an older request for the other bank, whose row is not open. -/
theorem tick_selects_overtaking :
    (2 : UInt32).toNat = twoPow 1 ∧ ∃ r q,
      record perform
        (idle { banks := 2, commandCycles := 1, bankBusyCycles := 4, dataCycles := 2 } 32)
        [.add ⟨0, .data⟩ 0, .tick 0, .add ⟨32, .data⟩ 9, .add ⟨64, .instruction⟩ 9] = .ok r
      ∧ r.2.pending.map (·.id) = [1, 2] ∧ r.2.tick 9 = .ok q
      ∧ (∃ w, q.1.started? = some w ∧ w.id = 2 ∧ w.status = .hit)
      ∧ ∃ retired mid, r.2.retire 9 = .ok (retired, mid) ∧ q.1.retired = retired
        ∧ mid.Selects 9 q.1.started? q.2 := by
  have hruns := tick_selects
    { banks := 2, commandCycles := 1, bankBusyCycles := 4, dataCycles := 2 } 32 1 rfl
    [.add ⟨0, .data⟩ 0, .tick 0, .add ⟨32, .data⟩ 9, .add ⟨64, .instruction⟩ 9] 9
  obtain ⟨retired, mid, hretire, htick⟩ := hruns.of_ok rfl
  obtain ⟨hretired, hselects⟩ := htick.of_ok rfl
  exact ⟨rfl, _, _, rfl, rfl, rfl, ⟨_, rfl, rfl, rfl⟩, retired, mid, hretire, hretired, hselects⟩

/-! ## Reservations and candidates -/

/-- **Candidates.** Whatever has been asked of a controller with a power-of-two number of banks,
the two buses and every bank are reserved for the requests under way, each of them under its own
number, and for nothing else. So a request for one of the banks, with any plan, is a candidate
exactly if it conflicts with none of them. The calls go through unless a number does not fit its
word. -/
theorem candidates_free (config : Config.Dram) (lineBytes k : Nat)
    (hbanks : config.banks.toNat = twoPow k) (calls : List Call) :
    Ends (record perform (idle config lineBytes) calls) Overflows fun r =>
      (r.2.requests.map (·.id)).Nodup
        ∧ r.2.channel.command = r.2.ongoing.flatMap Request.commandSlots
        ∧ r.2.channel.data = r.2.ongoing.map Request.dataSlot
        ∧ (∀ i b, r.2.banks[i]? = some b →
            b.reservations = (r.2.ongoing.filter (·.bank == i)).map Request.bankSlot)
        ∧ ∀ s : Request, s.bank < r.2.banks.size →
            ∃ candidate, r.2.isCandidate s = .ok candidate
              ∧ (candidate = true ↔ ∀ o ∈ r.2.ongoing, o.conflictsWith s = false) := by
  apply (run_sound (idle_sound hbanks) calls).weaken
  intro r hsound
  have hholds := hsound.holds
  refine ⟨hsound.ids_nodup, ?_, ?_, hholds.banks, ?_⟩
  · rw [hholds.channel]
    rfl
  · rw [hholds.channel]
    rfl
  · intro s hs
    exact isCandidate_free hholds hs

/-- Two requests are under way on two banks, and a third one has retired. A request that would use
the data bus together with the second of them is no candidate, one that comes later is. -/
theorem candidates_free_two_banks :
    (2 : UInt32).toNat = twoPow 1 ∧ ∃ r,
      record perform
        (idle { banks := 2, commandCycles := 1, bankBusyCycles := 4, dataCycles := 2 } 32)
        [.add ⟨0, .data⟩ 0, .tick 0, .tick 9, .add ⟨0, .data⟩ 20, .add ⟨32, .instruction⟩ 20,
          .tick 20, .tick 21] = .ok r
      ∧ r.2.ongoing.map (·.id) = [1, 2]
      ∧ (∀ s : Request, s.bank < r.2.banks.size →
          ∃ candidate, r.2.isCandidate s = .ok candidate
            ∧ (candidate = true ↔ ∀ o ∈ r.2.ongoing, o.conflictsWith s = false))
      ∧ r.2.isCandidate ⟨9, ⟨0, .data⟩, 0, 0, 0, .hit, ⟨none, none, ⟨40, 40⟩, ⟨40, 43⟩, ⟨29, 30⟩⟩⟩
          = .ok false
      ∧ r.2.isCandidate ⟨9, ⟨0, .data⟩, 0, 0, 0, .hit, ⟨none, none, ⟨40, 40⟩, ⟨40, 43⟩, ⟨44, 45⟩⟩⟩
          = .ok true := by
  have hruns := candidates_free
    { banks := 2, commandCycles := 1, bankBusyCycles := 4, dataCycles := 2 } 32 1 rfl
    [.add ⟨0, .data⟩ 0, .tick 0, .tick 9, .add ⟨0, .data⟩ 20, .add ⟨32, .instruction⟩ 20,
      .tick 20, .tick 21]
  obtain ⟨-, -, -, -, hcandidates⟩ := hruns.of_ok rfl
  exact ⟨rfl, _, rfl, rfl, hcandidates, rfl, rfl⟩

end Dram.Controller

end MemoryHierarchy
