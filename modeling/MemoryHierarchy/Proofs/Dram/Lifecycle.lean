import MemoryHierarchy.Proofs.Dram.Selection
import MemoryHierarchy.Proofs.Dram.WholeRun

/-!
The life of a request, from its arrival to its retirement.

A controller that is given one cycle after the other neither loses a request nor serves it twice.

* `Lifecycle.places`: each request ever queued waits, is under way or has retired, and is in one
  of these places only (`Lifecycle.apart`).
* `Lifecycle.unchanged`: a started request keeps its plan until it retires.
* `Kept`: the cycle at which the transfer of a started request ends retires it, and no other
  does. Transfers do not share the data bus, so a cycle retires one request at most.

Retiring returns blocks and no numbers. Which requests a call retires is therefore read off the
list of those under way, before the call and after it (`observe`).
-/

namespace MemoryHierarchy.Dram

/-- What a request keeps from its arrival on. -/
def Request.identity (r : Request) : Nat × BlockRef × Nat × Nat × Nat :=
  (r.id, r.block, r.bank, r.row, r.arrival)

namespace Controller

/-! ## Runs with the requests that retire -/

/-- What a call answers, and the requests that were under way before it and are no longer. -/
structure Observed where
  reply : Reply
  gone : List Request

/-- One call, with the requests that it retires. -/
def observe (c : Controller) (call : Call) : Except Fault (Observed × Controller) := do
  let (reply, c') ← c.perform call
  return ({ reply, gone := c.ongoing.filter (· ∉ c'.ongoing) }, c')

/-- The answers alone. -/
def replies (past : List (Call × Observed)) : List (Call × Reply) :=
  past.map fun e => (e.1, e.2.reply)

/-- The request that a call queued. -/
def Reply.queued? : Reply → Option Request
  | .queued r => some r
  | .ticked _ => none

/-- Every request that has been queued, latest first. -/
def queued (past : List (Call × Reply)) : List Request := past.filterMap (·.2.queued?)

/-- Every request that has retired, latest first. -/
def retired (past : List (Call × Observed)) : List Request := past.flatMap (·.2.gone)

variable {c c' : Controller} {now first : Nat} {r w : Request} {started? : Option Request}
  {t : Timing} {past : List (Call × Observed)}

@[simp] theorem replies_cons (call : Call) (observed : Observed) (past : List (Call × Observed)) :
    replies ((call, observed) :: past) = (call, observed.reply) :: replies past := rfl

@[simp] theorem retired_cons (call : Call) (observed : Observed)
    (past : List (Call × Observed)) :
    retired ((call, observed) :: past) = observed.gone ++ retired past := rfl

@[simp] theorem queued_queued (call : Call) (r : Request) (past : List (Call × Reply)) :
    queued ((call, .queued r) :: past) = r :: queued past := rfl

@[simp] theorem queued_ticked (call : Call) (cycle : Cycle) (past : List (Call × Reply)) :
    queued ((call, .ticked cycle) :: past) = queued past := rfl

/-! ## What one cycle retires -/

/-- What is started or still waits was waiting before. -/
theorem Scheduled.waited (h : c.Scheduled now started? c')
    (hr : r ∈ started?.toList ++ c'.pending) : r.identity ∈ c.pending.map Request.identity := by
  cases h with
  | none queue hqueue =>
    rw [← map_replanned (f := Request.identity) (fun _ _ _ => rfl) hqueue]
    exact List.mem_map_of_mem hr
  | some s front back hqueue =>
    rw [← map_replanned (f := Request.identity) (fun _ _ _ => rfl) hqueue]
    have hmem : r ∈ [s] ++ (front ++ back) := hr
    exact List.mem_map_of_mem (List.perm_middle.mem_iff.mpr hmem)

theorem Scheduled.started_waits (h : c.Scheduled now started? c') (hw : started? = .some w) :
    w.identity ∈ c.pending.map Request.identity :=
  h.waited (List.mem_append_left _ (Option.mem_toList.mpr hw))

theorem afterRetire_nextId (c : Controller) (now : Nat) :
    (c.afterRetire now).nextId = c.nextId := by
  obtain ⟨channel, banks, heq, -⟩ := c.afterRetire_eq now
  rw [heq]

/-- A started request was not under way before. -/
theorem Scheduled.started_new (hc : c.Sound) (h : (c.afterRetire now).Scheduled now started? c')
    (hw : started? = .some w) (hr : r ∈ c.ongoing) : r.id ≠ w.id := by
  have hwaits := h.started_waits hw
  rw [afterRetire_pending] at hwaits
  obtain ⟨s, hs, heq⟩ := List.mem_map.mp hwaits
  have hid : s.id = w.id := congrArg Prod.fst heq
  have hids := hc.ids_nodup
  rw [requests, List.map_append, List.nodup_append] at hids
  rw [← hid]
  exact hids.2.2 _ (List.mem_map_of_mem hr) _ (List.mem_map_of_mem hs)

/-- The requests that a cycle retires are those whose transfer has ended. -/
theorem Scheduled.gone_eq (hc : c.Sound) (h : (c.afterRetire now).Scheduled now started? c') :
    c.ongoing.filter (· ∉ c'.ongoing) = c.ended now := by
  rw [ended, h.ongoing_eq, afterRetire_ongoing]
  apply List.filter_congr
  intro r hr
  by_cases hended : hasEnded now r
  · have hunder : r ∉ c.underWay now := by simp [underWay, hended]
    have hstarted : r ∉ started?.toList := by
      intro hmem
      exact h.started_new hc (Option.mem_toList.mp hmem) hr rfl
    simp [hended, hunder, hstarted]
  · have hunder : r ∈ c.underWay now := by simp [underWay, hended, hr]
    simp [hended, hunder]

theorem observe_add (hc : c.Sound) (block : BlockRef) (arrival : Nat) :
    Ends (c.observe (.add block arrival)) Overflows fun q =>
      ∃ r, q.1 = ⟨.queued r, []⟩ ∧ r.id = c.nextId ∧ r.block = block ∧ r.bank < c.banks.size
        ∧ q.2 = { c with pending := c.pending ++ [r], nextId := c.nextId + 1 } := by
  have hadd : Ends (c.perform (.add block arrival)) Overflows fun q =>
      ∃ r, q.1 = .queued r ∧ r.id = c.nextId ∧ r.block = block ∧ r.bank < c.banks.size
        ∧ q.2 = { c with pending := c.pending ++ [r], nextId := c.nextId + 1 } := by
    apply Ends.bind' (add_spec hc.maskable block arrival)
    intro added hadded
    obtain ⟨heq, hid, hblock, hbank⟩ := hadded
    exact Ends.pure' ⟨added.1, rfl, hid, hblock, hbank, heq⟩
  apply Ends.bind' hadd
  intro q hq
  obtain ⟨r, hreply, hid, hblock, hbank, heq⟩ := hq
  have hgone : c.ongoing.filter (· ∉ q.2.ongoing) = [] := by simp [heq]
  apply Ends.pure'
  rw [hgone, hreply]
  exact ⟨r, rfl, hid, hblock, hbank, heq⟩

theorem observe_tick (hc : c.Sound) (now : Nat) :
    Ends (c.observe (.tick now)) Overflows fun q =>
      ∃ started?, q.1 = ⟨.ticked ⟨(c.ended now).map (·.block), started?⟩, c.ended now⟩
        ∧ (c.afterRetire now).Scheduled now started? q.2 := by
  have htick : Ends (c.perform (.tick now)) Overflows fun q =>
      ∃ started?, q.1 = .ticked ⟨(c.ended now).map (·.block), started?⟩
        ∧ (c.afterRetire now).Scheduled now started? q.2 := by
    apply Ends.bind' (tick_spec hc now)
    intro ticked hticked
    obtain ⟨⟨retired, started?⟩, c'⟩ := ticked
    obtain ⟨rfl, hscheduled⟩ := hticked
    exact Ends.pure' ⟨started?, rfl, hscheduled⟩
  apply Ends.bind' htick
  intro q hq
  obtain ⟨started?, hreply, hscheduled⟩ := hq
  apply Ends.pure'
  rw [hscheduled.gone_eq hc, hreply]
  exact ⟨started?, rfl, hscheduled⟩

/-! ## What every run keeps -/

/-- What holds of one call of a run, given the calls before it. A cycle retires the requests
started before whose transfer ends at this very cycle, at most one, and returns their blocks. A
request that it starts was queued before, and its transfer is yet to end. -/
def Kept (earlier : List (Call × Observed)) : Call → Observed → Prop
  | .add block _, ⟨.queued r, gone⟩ => r.block = block ∧ gone = []
  | .tick now, ⟨.ticked cycle, gone⟩ =>
    cycle.retired = gone.map (·.block)
      ∧ (∀ r, r ∈ gone ↔ r ∈ started (replies earlier) ∧ r.plan.data.stop = now)
      ∧ gone.length ≤ 1
      ∧ ∀ w, cycle.started? = some w →
          w.identity ∈ (queued (replies earlier)).map Request.identity
            ∧ now < w.plan.data.stop
  | _, _ => False

/-- The lives of all requests of a run. -/
structure Lifecycle (past : List (Call × Observed)) (c : Controller) : Prop where
  numbered : (queued (replies past)).reverse.map (·.id) = List.range c.nextId
  ordered : (c.pending.map (·.id)).Pairwise (· < ·)
  places : ((c.ongoing ++ c.pending ++ retired past).map Request.identity).Perm
    ((queued (replies past)).map Request.identity)
  apart : ((c.ongoing ++ c.pending ++ retired past).map (·.id)).Nodup
  startedOnce : ((started (replies past)).map (·.id)).Nodup
  unchanged : (started (replies past)).Perm (c.ongoing ++ retired past)
  kept : Each Kept past

/-- The invariant of a run whose next cycle is `first`: what is under way has not ended before
this cycle, and what has retired has. -/
structure Living (t : Timing) (first : Nat) (past : List (Call × Observed)) (c : Controller) :
    Prop where
  sound : c.Sound
  ordered : c.Ordered
  timing : c.timing = t
  numbered : (queued (replies past)).reverse.map (·.id) = List.range c.nextId
  places : ((c.requests ++ retired past).map Request.identity).Perm
    ((queued (replies past)).map Request.identity)
  unchanged : (started (replies past)).Perm (c.ongoing ++ retired past)
  transfers : ∀ r ∈ c.ongoing, r.plan.data.start ≤ r.plan.data.stop
  due : ∀ r ∈ c.ongoing, first ≤ r.plan.data.stop
  finished : ∀ r ∈ retired past, r.plan.data.stop < first
  kept : Each Kept past

theorem idle_living (config : Config.Dram) (lineBytes k : Nat)
    (hbanks : config.banks.toNat = twoPow k) (first : Nat) :
    Living (idle config lineBytes).timing first [] (idle config lineBytes) where
  sound := idle_sound hbanks
  ordered := List.Pairwise.nil
  timing := rfl
  numbered := rfl
  places := .refl _
  unchanged := .refl _
  transfers := by simp [idle]
  due := by simp [idle]
  finished := by simp [retired]
  kept := trivial

namespace Living

theorem apart (h : Living t first past c) : ((c.requests ++ retired past).map (·.id)).Nodup := by
  have hperm := h.places.map Prod.fst
  rw [List.map_map, List.map_map] at hperm
  refine hperm.nodup_iff.mpr (List.nodup_reverse.mp ?_)
  rw [← List.map_reverse]
  exact h.numbered ▸ List.nodup_range

theorem startedOnce (h : Living t first past c) :
    ((started (replies past)).map (·.id)).Nodup := by
  refine (h.unchanged.map _).nodup_iff.mpr (h.apart.sublist (List.Sublist.map _ ?_))
  exact (List.sublist_append_left c.ongoing c.pending).append_right _

theorem lifecycle (h : Living t first past c) : Lifecycle past c :=
  ⟨h.numbered, h.ordered, h.places, h.apart, h.startedOnce, h.unchanged, h.kept⟩

/-- Of the requests started so far, those are under way whose transfer does not end before the
next cycle. -/
theorem mem_ongoing_iff (h : Living t first past c) :
    r ∈ c.ongoing ↔ r ∈ started (replies past) ∧ first ≤ r.plan.data.stop := by
  rw [h.unchanged.mem_iff, List.mem_append]
  constructor
  · exact fun hr => ⟨.inl hr, h.due r hr⟩
  · rintro ⟨hr | hr, hle⟩
    · exact hr
    · exact absurd (h.finished r hr) (Nat.not_lt.mpr hle)

/-- The next cycle retires what ends at this cycle. -/
theorem mem_ended_iff (h : Living t now past c) :
    r ∈ c.ended now ↔ r ∈ started (replies past) ∧ r.plan.data.stop = now := by
  simp only [ended, List.mem_filter, hasEnded, decide_eq_true_eq, h.mem_ongoing_iff]
  constructor
  · exact fun hr => ⟨hr.1.1, Nat.le_antisymm hr.2 hr.1.2⟩
  · exact fun hr => ⟨⟨hr.1, Nat.le_of_eq hr.2.symm⟩, Nat.le_of_eq hr.2⟩

/-- All transfers that end at this cycle use the data bus now, so there is one at most. -/
theorem ended_length_le (h : Living t now past c) : (c.ended now).length ≤ 1 := by
  have hstop : ∀ r ∈ c.ended now, r.plan.data.start ≤ now ∧ r.plan.data.stop = now := by
    intro r hr
    have hstop := (h.mem_ended_iff.mp hr).2
    exact ⟨hstop ▸ h.transfers r (List.mem_filter.mp hr).1, hstop⟩
  have hapart : (c.ended now).Pairwise Request.DataApart :=
    (h.sound.exclusive.filter _).imp fun hfree => (Request.apart_of_conflictsWith hfree).2.1
  match hended : c.ended now with
  | [] => simp
  | [_] => simp
  | r :: s :: rest =>
    rw [hended] at hstop hapart
    have hr := hstop r (by simp)
    have hs := hstop s (by simp)
    have hmeet : r.plan.data.overlaps s.plan.data := by
      rw [Interval.overlaps_iff]
      omega
    have hfree : r.plan.data.overlaps s.plan.data = false :=
      (List.pairwise_cons.mp hapart).1 s (by simp)
    rw [hfree] at hmeet
    cases hmeet

theorem add (h : Living t first past c) (block : BlockRef) (arrival : Nat) :
    Ends (c.observe (.add block arrival)) Overflows fun q =>
      Living t first ((.add block arrival, q.1) :: past) q.2 := by
  apply (observe_add h.sound block arrival).weaken
  intro q hq
  obtain ⟨observed, c'⟩ := q
  obtain ⟨r, rfl, hid, hblock, hbank, rfl⟩ := hq
  exact
    { sound := h.sound.add hid hbank
      ordered := h.ordered.add h.sound hid
      timing := h.timing
      numbered := by
        simp only [replies_cons, queued_queued, List.reverse_cons, List.map_append, h.numbered,
          List.map_singleton, hid, List.range_succ]
      places := by
        have hmiddle : (c.ongoing ++ (c.pending ++ [r]) ++ retired past).Perm
            (r :: (c.requests ++ retired past)) := by
          simp only [requests, List.append_assoc, List.singleton_append]
          rw [← List.append_assoc, ← List.append_assoc]
          exact List.perm_middle
        exact (hmiddle.map Request.identity).trans (h.places.cons r.identity)
      unchanged := h.unchanged
      transfers := h.transfers
      due := h.due
      finished := h.finished
      kept := ⟨⟨hblock, rfl⟩, h.kept⟩ }

theorem tick (ht : t.Positive) (h : Living t now past c) :
    Ends (c.observe (.tick now)) Overflows fun q =>
      Living t (now + 1) ((.tick now, q.1) :: past) q.2 := by
  apply (observe_tick h.sound now).weaken
  intro q hq
  obtain ⟨observed, c'⟩ := q
  obtain ⟨started?, rfl, hscheduled⟩ := hq
  have hwiring := c.wiring_afterRetire now
  have htiming : (c.afterRetire now).timing = t := (congrArg Wiring.timing hwiring).trans h.timing
  have hongoing : c'.ongoing = c.underWay now ++ started?.toList := by
    rw [hscheduled.ongoing_eq, afterRetire_ongoing]
  have hsplit : (c.ended now ++ c.underWay now).Perm c.ongoing := List.filter_append_perm _ _
  -- The request that is started has its transfer ahead of it.
  have hplan : ∀ w, started? = some w →
      w.plan.data.start ≤ w.plan.data.stop ∧ now < w.plan.data.stop := by
    intro w hw
    subst hw
    have hlayout := hscheduled.startable.plan_eq (htiming ▸ ht)
    rw [htiming] at hlayout
    have hlock := ht.lock_pos w.status
    have hdata := ht.data
    rw [hlayout, Plan.layout]
    dsimp only
    omega
  have hwaits : ∀ w, started? = some w →
      w.identity ∈ (queued (replies past)).map Request.identity := by
    intro w hw
    have hmem := hscheduled.started_waits hw
    rw [afterRetire_pending] at hmem
    refine h.places.subset (List.map_subset _ ?_ hmem)
    exact fun r hr => List.mem_append_left _ (List.mem_append_right _ hr)
  refine
    { sound := (h.sound.afterRetire now).scheduled hscheduled
      ordered := (h.ordered.afterRetire now).scheduled hscheduled
      timing := (congrArg Wiring.timing hscheduled.wiring_eq).trans htiming
      numbered := ?_
      places := ?_
      unchanged := ?_
      transfers := ?_
      due := ?_
      finished := ?_
      kept := ⟨⟨rfl, fun r => h.mem_ended_iff, h.ended_length_le, ?_⟩, h.kept⟩ }
  · rw [hscheduled.nextId_eq, afterRetire_nextId]
    exact h.numbered
  · have hmoved := hscheduled.requests_perm (f := Request.identity) fun _ _ _ => rfl
    have hback : (c.underWay now ++ c.pending ++ (c.ended now ++ retired past)).Perm
        (c.requests ++ retired past) := by
      rw [List.perm_iff_count]
      intro r
      have hcount := hsplit.count_eq r
      simp only [requests, List.count_append] at hcount ⊢
      omega
    rw [requests_afterRetire] at hmoved
    rw [replies_cons, queued_ticked, retired_cons]
    calc ((c'.requests ++ (c.ended now ++ retired past)).map Request.identity).Perm
          ((c.underWay now ++ c.pending ++ (c.ended now ++ retired past)).map
            Request.identity) := by
          have hmore := hmoved.append_right ((c.ended now ++ retired past).map Request.identity)
          rw [← List.map_append, ← List.map_append] at hmore
          exact hmore
      List.Perm _ ((c.requests ++ retired past).map Request.identity) := hback.map _
      List.Perm _ ((queued (replies past)).map Request.identity) := h.places
  · rw [replies_cons, started_ticked, retired_cons, hongoing, List.perm_iff_count]
    intro r
    have hunchanged := h.unchanged.count_eq r
    have hcount := hsplit.count_eq r
    simp only [List.count_append] at hunchanged hcount ⊢
    omega
  · intro r hr
    rw [hongoing] at hr
    rcases List.mem_append.mp hr with hr | hr
    · exact h.transfers r (List.mem_filter.mp hr).1
    · exact (hplan r (Option.mem_toList.mp hr)).1
  · intro r hr
    rw [hongoing] at hr
    rcases List.mem_append.mp hr with hr | hr
    · have hunder : now < r.plan.data.stop := by
        simpa [hasEnded] using (List.mem_filter.mp hr).2
      exact hunder
    · exact (hplan r (Option.mem_toList.mp hr)).2
  · intro r hr
    rcases List.mem_append.mp hr with hr | hr
    · rw [(h.mem_ended_iff.mp hr).2]
      exact Nat.lt_succ_self now
    · exact Nat.lt_succ_of_lt (h.finished r hr)
  · exact fun w hw => ⟨hwaits w hw, (hplan w hw).2⟩

end Living

theorem observe_living (ht : t.Positive) (call : Call) (rest : List Call)
    (h : ∃ first n, cycles (call :: rest) = List.range' first n ∧ Living t first past c) :
    Ends (c.observe call) Overflows fun q =>
      ∃ first n, cycles rest = List.range' first n ∧ Living t first ((call, q.1) :: past) q.2 := by
  obtain ⟨first, n, hcycles, hliving⟩ := h
  cases call with
  | add block arrival =>
    apply (hliving.add block arrival).weaken
    exact fun _ h => ⟨first, n, hcycles, h⟩
  | tick now =>
    -- the cycles follow each other, so this one is the first and the next one comes after it
    change now :: cycles rest = List.range' first n at hcycles
    cases n with
    | zero => cases hcycles
    | succ n =>
      rw [List.range'_succ, List.cons.injEq] at hcycles
      obtain ⟨rfl, hrest⟩ := hcycles
      apply (hliving.tick ht).weaken
      exact fun _ h => ⟨now + 1, n, hrest, h⟩

theorem run_living (ht : t.Positive) {n : Nat} (calls : List Call)
    (hcalls : cycles calls = List.range' first n) (h : Living t first [] c) :
    Ends (record observe c calls) Overflows fun q => ∃ next, Living t next q.1 q.2 := by
  apply (Ends.record
    (fun rest past c => ∃ first n, cycles rest = List.range' first n ∧ Living t first past c)
    (fun call rest _ _ h => observe_living ht call rest h) calls [] c
    ⟨first, n, hcalls, h⟩).weaken
  intro q hq
  obtain ⟨next, -, -, hliving⟩ := hq
  exact ⟨next, hliving⟩

/-- **The life of a request.** Whatever is queued between consecutive cycles of a fresh controller
of an accepted configuration: requests are numbered in the order of their arrival, each is in one
place at every point, starts at most once, keeps its plan from then on, and is retired by the
cycle at which its transfer ends and by no other. The calls go through unless a number does not
fit its word. -/
theorem requests_live_once (c : Config) (g : Config.Geometries) (hc : c.validate = .ok g)
    (calls : List Call) (first n : Nat) (hcalls : cycles calls = List.range' first n) :
    Ends (record observe (idle c.dram g.l2.lineBytes) calls) Overflows fun r =>
      Lifecycle r.1 r.2 := by
  have hdram := (Config.validate_fitted hc).dram
  obtain ⟨k, hbanks, -⟩ := hdram.bankTop
  have hlegal := idle_legal hdram
  have hstart := idle_living c.dram g.l2.lineBytes k hbanks first
  apply (run_living hlegal.timing calls hcalls hstart).weaken
  intro r hr
  obtain ⟨next, hliving⟩ := hr
  exact hliving.lifecycle

/-- Three requests for two banks; the last one finds its row open and overtakes the second. -/
theorem requests_live_once_three :
    ∃ (c : Config) (g : Config.Geometries) (calls : List Call), c.validate = .ok g
      ∧ cycles calls = List.range' 0 5
      ∧ ∃ r, record observe (idle c.dram g.l2.lineBytes) calls = .ok r
        ∧ (started (replies r.1)).map (·.id) = [1, 2, 0] ∧ (retired r.1).map (·.id) = [2, 0]
        ∧ Lifecycle r.1 r.2 := by
  have hvalid : Config.validate
      { general := { wordBits := 8, memoryBytes := 16 }
        caches := { l1Instruction := ⟨4, 1, 4⟩, l1Data := ⟨4, 1, 4⟩, l2 := ⟨8, 1, 4⟩ }
        missTracking := { entries := 2 }
        latencies := ⟨1, 1, 1⟩
        dram := ⟨2, 4, 1, 1, 1⟩ } = .ok _ := rfl
  have hcalls : cycles [.add ⟨0, .data⟩ 0, .tick 0, .add ⟨4, .data⟩ 1, .add ⟨8, .instruction⟩ 1,
      .tick 1, .tick 2, .tick 3, .tick 4] = List.range' 0 5 := by decide
  have hrun : (record observe (idle ⟨2, 4, 1, 1, 1⟩ 4)
      [.add ⟨0, .data⟩ 0, .tick 0, .add ⟨4, .data⟩ 1, .add ⟨8, .instruction⟩ 1, .tick 1, .tick 2,
        .tick 3, .tick 4]).toOption.map
        (fun r => ((started (replies r.1)).map (·.id), (retired r.1).map (·.id)))
      = some ([1, 2, 0], [2, 0]) := by decide +kernel
  obtain ⟨r, hr, hids, hlives⟩ := (requests_live_once _ _ hvalid _ 0 5 hcalls).evaluated hrun
  obtain ⟨hstarted, hretired⟩ := Prod.mk.inj hids
  exact ⟨_, _, _, hvalid, hcalls, r, hr, hstarted, hretired, hlives⟩

end Controller

end MemoryHierarchy.Dram
