import MemoryHierarchy.Proofs.Hierarchy.Effects
import MemoryHierarchy.Proofs.Hierarchy.Stores

/-!
How long everything on its way still takes.

`Paced` bounds it: a message is due within the latency of its route, and a request under way
retires within the longest service. Requests and deliveries keep that, and so does a tick
(`Paced.ticked`), which also leaves no request waiting while memory has nothing to do.
-/

namespace MemoryHierarchy.Hierarchy

/-- What no action changes about the parts of a hierarchy. -/
structure Setting where
  l1 : PerKind Geometry
  latencies : Config.Latencies
  wiring : Dram.Controller.Wiring

namespace Setting

/-- The latency of a route. -/
def latency (s : Setting) (route : Route) : Nat := (Interconnect.empty s.latencies).latency route

/-- The most ticks that a request is under way. -/
def service (s : Setting) : Nat := s.wiring.timing.service 3

/-- Every message takes a tick at least, and memory is wired up as it should be. -/
structure Legal (s : Setting) : Prop where
  latencies : s.latencies.Positive
  wiring : s.wiring.Legal

theorem Legal.latency_pos {s : Setting} (hl : s.Legal) (route : Route) : 1 ≤ s.latency route := by
  cases route with
  | l2ToL1 => exact hl.latencies.l2ToL1
  | l2ToMemory => exact hl.latencies.l2ToMemory
  | memoryToL2 => exact hl.latencies.memoryToL2

end Setting

/-- A hierarchy with this setting, in which nothing takes longer than it should. -/
structure Paced (s : Setting) (h : Hierarchy) : Prop where
  kind : ∀ kind, (h.l1.get kind).kind = kind
  l1 : ∀ kind, (h.l1.get kind).store.geometry = s.l1.get kind
  latencies : h.interconnect.latencies = s.latencies
  wiring : h.dram.wiring = s.wiring
  messages : ∀ m ∈ h.interconnect.messages, m.remaining < s.latency m.route
  ongoing : ∀ r ∈ h.dram.ongoing,
    h.cycle ≤ r.plan.data.stop ∧ r.plan.data.stop < h.cycle + s.service

variable {frame : Frame} {contents : Kind → Nat → Word} {h h' : Hierarchy} {s : Setting}
  {m : Message} {rest : List Message}

namespace Paced

theorem latency_eq (hp : h.Paced s) (route : Route) :
    h.interconnect.latency route = s.latency route := by
  rw [Setting.latency, ← hp.latencies]
  cases route <;> rfl

theorem timing_eq (hp : h.Paced s) : h.dram.timing = s.wiring.timing :=
  congrArg Dram.Controller.Wiring.timing hp.wiring

/-- A message that is sent has the latency of its route. -/
theorem sendOn (hl : s.Legal) (hp : h.Paced s) (b : BlockRef) (route : Route) :
    ∀ m ∈ (h.interconnect.sendOn b route).messages, m.remaining < s.latency m.route := by
  intro m hm
  rcases Interconnect.mem_sendOn.mp hm with hm | rfl
  · exact hp.messages m hm
  · rw [hp.latency_eq]
    exact Nat.sub_lt (hl.latency_pos route) Nat.one_pos

theorem requested (hl : s.Legal) (hp : h.Paced s) (hr : Requested h h') : h'.Paced s where
  kind kind := (hr.l1 kind).kind.trans (hp.kind kind)
  l1 kind := (hr.l1 kind).geometry.trans (hp.l1 kind)
  latencies := by
    rcases hr.sent with heq | ⟨b, route, heq⟩
    · rw [heq]
      exact hp.latencies
    · rw [heq]
      exact hp.latencies
  wiring := by
    rw [hr.dram]
    exact hp.wiring
  messages := by
    rcases hr.sent with heq | ⟨b, route, heq⟩
    · rw [heq]
      exact hp.messages
    · rw [heq]
      exact hp.sendOn hl b route
  ongoing := by
    rw [hr.dram, hr.cycle]
    exact hp.ongoing

/-- The messages that wait come one tick closer. -/
theorem due (hp : h.Paced s) : { h with interconnect := h.interconnect.tick.2 }.Paced s where
  kind := hp.kind
  l1 := hp.l1
  latencies := by
    rw [Interconnect.tick_waiting]
    exact hp.latencies
  wiring := hp.wiring
  messages := by
    intro m hm
    obtain ⟨m₀, hm₀, -, rfl⟩ := Interconnect.mem_tick_waiting.mp hm
    exact Nat.lt_of_le_of_lt (Nat.sub_le _ _) (hp.messages m₀ hm₀)
  ongoing := hp.ongoing

theorem delivered (hl : s.Legal) (hs : h.Sound frame contents (carried (m :: rest)))
    (hp : h.Paced s) (hd : Delivered h m h') : h'.Paced s ∧ h'.cycle = h.cycle := by
  cases hd with
  | atL1 l1 counters hroute hkept hhere =>
    have hl1 := l1_kept hs hkept
    exact ⟨⟨fun kind => (hl1 kind).kind.trans (hp.kind kind),
      fun kind => (hl1 kind).geometry.trans (hp.l1 kind), hp.latencies, hp.wiring, hp.messages,
      hp.ongoing⟩, rfl⟩
  | atMemory r counters =>
    exact ⟨⟨hp.kind, hp.l1, hp.latencies, hp.wiring, hp.messages, hp.ongoing⟩, rfl⟩
  | atL2 filled counters hroute hgeometry hhere hmisses hnotified hsent =>
    refine ⟨⟨hp.kind, hp.l1, ?_, hp.wiring, ?_, hp.ongoing⟩, rfl⟩
    · show filled.interconnect.latencies = _
      rw [hsent]
      split <;> exact hp.latencies
    · show ∀ m ∈ filled.interconnect.messages, _
      rw [hsent]
      split
      · exact hp.sendOn hl _ _
      · exact hp.messages

theorem deliverDue (hl : s.Legal) (hs : h.Sound frame contents []) (hp : h.Paced s) :
    Ends h.deliverDue Overflows fun h₁ => h₁.Paced s ∧ h₁.cycle = h.cycle := by
  apply deliver_all_keep (fun _ h₁ => h₁.Paced s ∧ h₁.cycle = h.cycle) ?_ _ (due_sound hs)
    ⟨hp.due, rfl⟩
  intro m due h₁ h₂ hs₁ hh₁ hd
  obtain ⟨hp₂, hcycle⟩ := hh₁.1.delivered hl hs₁ hd
  exact ⟨hp₂, hcycle.trans hh₁.2⟩

/-- What is under way after a cycle was under way before and has not ended, or starts now. -/
theorem dram_ticked (hl : s.Legal) (hs : h.dram.Sound) (hp : h.Paced s) {done : Dram.Cycle}
    {dram : Dram.Controller} (hmemory : h.dram.tick h.cycle = .ok (done, dram)) :
    dram.wiring = s.wiring ∧ (dram.pending ≠ [] → dram.ongoing ≠ [])
      ∧ ∀ r ∈ dram.ongoing,
        h.cycle + 1 ≤ r.plan.data.stop ∧ r.plan.data.stop < h.cycle + 1 + s.service := by
  obtain ⟨-, hscheduled⟩ := (Dram.Controller.tick_spec hs h.cycle).of_ok hmemory
  have hwiring := h.dram.wiring_afterRetire h.cycle
  have ht : s.wiring.timing.Positive := hl.wiring.timing
  have htiming : (h.dram.afterRetire h.cycle).timing = s.wiring.timing :=
    (congrArg Dram.Controller.Wiring.timing hwiring).trans hp.timing_eq
  refine ⟨hscheduled.wiring_eq.trans (hwiring.trans hp.wiring),
    (hs.tick_busy h.cycle).of_ok hmemory, ?_⟩
  intro r hr
  rw [hscheduled.ongoing_eq, Dram.Controller.afterRetire_ongoing] at hr
  rcases List.mem_append.mp hr with hr | hr
  · obtain ⟨hmem, hended⟩ := List.mem_filter.mp hr
    have hstop := hp.ongoing r hmem
    have hlater : ¬r.plan.data.stop ≤ h.cycle := by simpa [Dram.Controller.hasEnded] using hended
    omega
  · rw [Option.mem_toList.mp hr] at hscheduled
    have hplan := hscheduled.startable.plan_eq (htiming ▸ ht)
    have hpos := ht.service_pos r.status.phaseCount_pos
    have hle := s.wiring.timing.service_mono r.status.phaseCount_le
    rw [hplan, htiming, Dram.Plan.layout_stop ht]
    change _ ∧ _ < h.cycle + 1 + s.wiring.timing.service 3
    omega

theorem ticked (hl : s.Legal) (hs : h.Sound frame contents []) (hp : h.Paced s)
    (ht : Ticked h h') :
    h'.Paced s ∧ h'.cycle = h.cycle + 1 ∧ (h'.dram.pending ≠ [] → h'.dram.ongoing ≠ []) := by
  obtain ⟨h₁, done, dram, counters, hdue, hmemory⟩ := ht
  obtain ⟨hp₁, hcycle⟩ := (hp.deliverDue hl hs).of_ok hdue
  have hs₁ := (deliverDue_sound hs).of_ok hdue
  obtain ⟨hwiring, hbusy, hongoing⟩ := hp₁.dram_ticked hl hs₁.dram hmemory
  refine ⟨⟨hp₁.kind, hp₁.l1, hp₁.latencies, hwiring, ?_, hongoing⟩, ?_, hbusy⟩
  · intro m hm
    rcases Interconnect.mem_returning.mp hm with hm | ⟨b, -, rfl⟩
    · exact hp₁.messages m hm
    · rw [hp₁.latency_eq]
      exact Nat.sub_lt (hl.latency_pos _) Nat.one_pos
  · show h₁.cycle + 1 = _
    rw [hcycle]

/-- Every action keeps the pace, and no action leaves requests waiting with none under way. -/
theorem perform (hl : s.Legal) (hs : h.Sound frame contents []) (hp : h.Paced s)
    (hbusy : h.dram.pending ≠ [] → h.dram.ongoing ≠ []) {action : Action}
    (haction : action.InRange frame.memoryBytes) :
    Ends (h.perform action) Overflows fun r => r.2.Paced s
      ∧ (r.2.dram.pending ≠ [] → r.2.dram.ongoing ≠ [])
      ∧ r.2.cycle = h.cycle + [action].count .tick := by
  have hrequested : ∀ {h'}, Requested h h' → h'.Paced s
      ∧ (h'.dram.pending ≠ [] → h'.dram.ongoing ≠ []) ∧ h'.cycle = h.cycle := by
    intro h' hr
    exact ⟨hp.requested hl hr, hr.dram ▸ hbusy, hr.cycle⟩
  cases action with
  | access kind a =>
    apply Ends.bind' (access_requested hs kind haction)
    exact fun _ hr => Ends.pure' (hrequested hr)
  | write a word =>
    apply Ends.bind' (write_requested hs haction word)
    exact fun _ hr => Ends.pure' (hrequested hr)
  | cancel kind a =>
    apply Ends.bind' (cancel_requested hs kind a)
    exact fun _ hr => Ends.pure' (hrequested hr)
  | tick =>
    apply Ends.bind' (tick_effect hs)
    intro h' ht
    obtain ⟨hp', hcycle, hbusy'⟩ := hp.ticked hl hs ht
    exact Ends.pure' ⟨hp', hbusy', hcycle⟩

end Paced

/-! ## Runs -/

theorem count_tick_cons (action : Action) (rest : List Action) :
    (action :: rest).count .tick = [action].count .tick + rest.count .tick := by
  show ([action] ++ rest).count .tick = _
  exact List.count_append

/-- What holds after the actions in `past`, with `rest` still to come: all is sound and in pace, no
request waits with none under way, and no cycle has passed but by a tick. -/
structure InPace (frame : Frame) (s : Setting) (contents : Kind → Nat → Word)
    (rest : List Action) (past : List (Action × Reply)) (h : Hierarchy) : Prop where
  holds : h.Holds frame contents rest past
  paced : h.Paced s
  busy : h.dram.pending ≠ [] → h.dram.ongoing ≠ []
  cycle : h.cycle ≤ past.length

theorem InPace.perform {action : Action} {rest : List Action} {past : List (Action × Reply)}
    (hl : s.Legal) (hh : h.InPace frame s contents (action :: rest) past) :
    Ends (h.perform action) Overflows fun r =>
      r.2.InPace frame s contents rest ((action, r.1) :: past)
        ∧ r.2.cycle = h.cycle + [action].count .tick := by
  have haction := hh.holds.inRange action List.mem_cons_self
  have hcount : [action].count .tick ≤ 1 := List.count_le_length
  have hbefore := hh.cycle
  apply (hh.holds.perform.also (hh.paced.perform hl hh.holds.sound hh.busy haction)).weaken
  intro r hr
  obtain ⟨hholds, hpaced, hbusy, hcycle⟩ := hr
  refine ⟨⟨hholds, hpaced, hbusy, ?_⟩, hcycle⟩
  rw [List.length_cons]
  omega

theorem run_inPace (hl : s.Legal) {actions : List Action} {past : List (Action × Reply)}
    (hh : h.InPace frame s contents actions past) :
    Ends (record Hierarchy.perform h actions past) Overflows fun r =>
      r.2.InPace frame s contents [] r.1 :=
  Ends.record (InPace frame s contents)
    (fun _ _ _ _ hh => (hh.perform hl).weaken fun _ hr => hr.1) actions past h hh

/-! ## The first state -/

/-- The setting of a configuration. -/
def Setting.ofConfig (c : Config) (g : Config.Geometries) : Setting where
  l1 := g.l1
  latencies := c.latencies
  wiring := (Dram.Controller.idle c.dram g.l2.lineBytes).wiring

theorem Setting.ofConfig_legal {c : Config} {g : Config.Geometries} (hc : c.Fitted g) :
    (Setting.ofConfig c g).Legal := ⟨hc.latencies, Dram.Controller.idle_legal hc.dram⟩

theorem build_paced (c : Config) (g : Config.Geometries) (memories : PerKind Port) :
    { build c g with memories }.Paced (Setting.ofConfig c g) where
  kind kind := by cases kind <;> rfl
  l1 kind := by cases kind <;> rfl
  latencies := rfl
  wiring := rfl
  messages := List.forall_mem_nil _
  ongoing := List.forall_mem_nil _

/-- A state that a hierarchy of this configuration comes to, and the actions that brought it there,
latest first. The memories may have been preloaded. -/
def Reaches (c : Config) (past : List (Action × Reply)) (h : Hierarchy) : Prop :=
  ∃ h₀ loads start actions, ofConfig? c = .ok h₀ ∧ h₀.preload loads = .ok start
    ∧ (∀ action ∈ actions, action.InRange c.general.memoryBytes.toNat)
    ∧ record Hierarchy.perform start actions = .ok (past, h)

theorem start_inPace {c : Config} {g : Config.Geometries} (hc : c.validate = .ok g)
    {h₀ start : Hierarchy} {loads : List Preload} (hbuild : ofConfig? c = .ok h₀)
    (hload : h₀.preload loads = .ok start) {actions : List Action}
    (hactions : ∀ action ∈ actions, action.InRange c.general.memoryBytes.toNat) :
    ∃ memories, start = { build c g with memories }
      ∧ start.InPace (Frame.ofConfig c g) (Setting.ofConfig c g) (wordsOf memories) actions [] := by
  obtain ⟨g', hg', rfl, -⟩ := ofConfig?_sound hbuild
  obtain rfl : g = g' := Except.ok.inj (hc.symm.trans hg')
  obtain ⟨memories, rfl, hfits⟩ :=
    preload_eq loads hload (zeroed_fits (Config.validate_accepted hc))
  have hs := build_sound hc memories (fun kind => (hfits kind).1) fun kind => (hfits kind).2
  exact ⟨memories, rfl, ⟨hactions, List.forall_mem_nil _, hs⟩, build_paced c g memories,
    fun hne => absurd rfl hne, Nat.le_refl _⟩

theorem Reaches.inPace {c : Config} {g : Config.Geometries} (hc : c.validate = .ok g)
    {past : List (Action × Reply)} (hreach : Reaches c past h) :
    ∃ contents, h.InPace (Frame.ofConfig c g) (Setting.ofConfig c g) contents [] past := by
  obtain ⟨h₀, loads, start, actions, hbuild, hload, hactions, hrun⟩ := hreach
  obtain ⟨memories, -, hstart⟩ := start_inPace hc hbuild hload hactions
  have hl := Setting.ofConfig_legal (Config.validate_fitted hc)
  exact ⟨_, (run_inPace hl hstart).of_ok hrun⟩

end MemoryHierarchy.Hierarchy
