import MemoryHierarchy.Proofs.Blank
import MemoryHierarchy.Proofs.Hierarchy.Stores

/-!
Timing does not depend on data.

A hierarchy with blank data words does what the hierarchy itself does, and no action can tell them
apart: every action on the blank hierarchy leads to the blank of where it leads otherwise, with the
same reply (`perform_blank`), and so does every run (`run_blank`). So two hierarchies that agree but
for data words, driven by the same actions but for the words written, agree after every step in all
else: the replies, the L1s, the messages, the memory controller, the outstanding misses, the
counters, and the L2 less its data words (`timing_independent_of_data`).
-/

namespace MemoryHierarchy

/-- The answer to a look-up, with a blank word if it asks for a write. -/
def Lookup.blank : Lookup → Lookup
  | .hit => .hit
  | .miss probe => .miss probe.blank

theorem Lookup.outcome_blank (lookup : Lookup) : lookup.blank.outcome = lookup.outcome := by
  cases lookup <;> rfl

/-- An L1 asks for reads only. -/
theorem L1.access_blank (c : L1) (address : Nat) :
    c.access address = (c.access address).map (Prod.map Lookup.blank id) := by
  apply bind_eq_map_of_eq rfl
  intro way?
  cases way? with
  | some way =>
    apply bind_eq_map_of_eq rfl
    exact fun _ => rfl
  | none => rfl

namespace Hierarchy

/-- The hierarchy with blank data words in the L2 and the memories. -/
def blank (h : Hierarchy) : Hierarchy :=
  { h with l2 := h.l2.blank, memories := h.memories.map Port.blank }

variable (h : Hierarchy)

/-! ## Requests -/

theorem lookUp_blank (kind : Kind) (address : Nat) :
    h.blank.lookUp kind address
      = (h.lookUp kind address).map (Prod.map Lookup.blank blank) := by
  apply bind_eq_map ((h.l1.get kind).access_blank address)
  intro found
  obtain ⟨lookup, l1⟩ := found
  show h.counters.countLookup kind lookup.blank.outcome >>= _ = _
  rw [lookup.outcome_blank]
  apply bind_eq_map_of_eq rfl
  exact fun _ => rfl

theorem probe_blank (p : Probe) :
    h.blank.probe p.blank = (h.probe p).map (Prod.map id blank) := by
  apply bind_eq_map (h.l2.probe_blank p h.interconnect)
  intro probed
  apply bind_eq_map_of_eq rfl
  exact fun _ => rfl

theorem access_blank (kind : Kind) (address : Nat) :
    h.blank.access kind address = (h.access kind address).map (Prod.map id blank) := by
  apply bind_eq_map_of_eq rfl
  intro _
  apply bind_eq_map (h.lookUp_blank kind address)
  intro found
  obtain ⟨lookup, h₁⟩ := found
  cases lookup with
  | hit => rfl
  | miss p =>
    apply bind_eq_map (h₁.probe_blank p)
    exact fun _ => rfl

theorem write_blank (address : Nat) (word : Word) :
    h.blank.write address word.blank = (h.write address word).map (Prod.map id blank) := by
  apply bind_eq_map_of_eq rfl
  intro _
  apply bind_eq_map (h.lookUp_blank .data address)
  intro found
  apply bind_eq_map (found.2.probe_blank { address, kind := .data, operation := .write word })
  intro probed
  apply bind_eq_map_of_eq rfl
  exact fun _ => rfl

theorem cancel_blank (kind : Kind) (address : Nat) :
    h.blank.cancel kind address = (h.cancel kind address).map (Prod.map id blank) := by
  apply bind_eq_map_of_eq rfl
  exact fun _ => rfl

/-! ## Ticks -/

theorem deliver_blank (m : Message) : h.blank.deliver m = (h.deliver m).map blank := by
  obtain ⟨block, remaining, route⟩ := m
  apply bind_eq_map_of_eq rfl
  intro counters
  cases route with
  | l2ToL1 =>
    apply bind_eq_map_of_eq rfl
    intro inserted
    apply bind_eq_map_of_eq rfl
    exact fun _ => rfl
  | l2ToMemory =>
    apply bind_eq_map_of_eq rfl
    intro added
    apply bind_eq_map_of_eq rfl
    exact fun _ => rfl
  | memoryToL2 =>
    apply bind_eq_map (h.l2.fill_blank block h.interconnect h.memories)
    intro filled
    apply bind_eq_map_of_eq rfl
    intro counters'
    apply bind_eq_map_of_eq rfl
    exact fun _ => rfl

theorem sendBack_blank (block : BlockRef) :
    h.blank.sendBack block = (h.sendBack block).map blank := by
  apply bind_eq_map_of_eq rfl
  exact fun _ => rfl

theorem deliverDue_blank : h.blank.deliverDue = h.deliverDue.map blank :=
  foldlM_eq_map deliver_blank h.interconnect.tick.1 { h with interconnect := h.interconnect.tick.2 }

theorem tickMemory_blank : h.blank.tickMemory = h.tickMemory.map blank := by
  apply bind_eq_map_of_eq rfl
  intro ticked
  obtain ⟨done, dram⟩ := ticked
  apply bind_eq_map (foldlM_eq_map sendBack_blank done.retired { h with dram })
  intro h₁
  cases done.started? with
  | none => rfl
  | some request =>
    apply bind_eq_map_of_eq rfl
    exact fun _ => rfl

theorem tick_blank : h.blank.tick = h.tick.map blank := by
  apply bind_eq_map h.deliverDue_blank
  intro h₁
  apply bind_eq_map h₁.tickMemory_blank
  intro h₂
  apply bind_eq_map_of_eq rfl
  exact fun _ => rfl

/-! ## Runs -/

/-- The action with a blank word, if it writes one. -/
def Action.blank : Action → Action
  | .write address word => .write address word.blank
  | action => action

/-- What an action replies does not depend on data, nor does where it leads but for data. -/
theorem perform_blank (action : Action) :
    h.blank.perform action.blank = (h.perform action).map (Prod.map id blank) := by
  cases action with
  | access kind address =>
    apply bind_eq_map (h.access_blank kind address)
    exact fun _ => rfl
  | write address word =>
    apply bind_eq_map (h.write_blank address word)
    exact fun _ => rfl
  | cancel kind address =>
    apply bind_eq_map (h.cancel_blank kind address)
    exact fun _ => rfl
  | tick =>
    apply bind_eq_map h.tick_blank
    exact fun _ => rfl

/-- The same holds of a run, whose history then has blank words. -/
theorem run_blank : ∀ (actions : List Action) (h : Hierarchy) (past : List (Action × Reply)),
    record perform h.blank (actions.map Action.blank) (past.map (Prod.map Action.blank id))
      = (record perform h actions past).map
        (Prod.map (List.map (Prod.map Action.blank id)) blank)
  | [], _, _ => rfl
  | action :: rest, h, past => by
    rw [List.map_cons, record, record]
    apply bind_eq_map (h.perform_blank action)
    intro r
    obtain ⟨reply, h'⟩ := r
    exact run_blank rest h' ((action, reply) :: past)

/-! ## What differs in data words only -/

end Hierarchy

/-- Lines that differ in data words only. -/
def Line.SameButWords (a b : Line) : Prop := b = { a with words := b.words }

theorem Line.sameButWords_of_blank {a b : Line} (h : a.blank = b.blank) : a.SameButWords b := by
  obtain ⟨_, _, _, _, _, _⟩ := a
  obtain ⟨_, _, _, _, _, _⟩ := b
  simp only [blank, mk.injEq] at h
  obtain ⟨rfl, rfl, rfl, rfl, rfl, -⟩ := h
  rfl

/-- Lines that look alike without their data words, one by one. -/
theorem Line.forall₂_of_blank {lines lines' : List Line}
    (h : lines.map Line.blank = lines'.map Line.blank) :
    List.Forall₂ Line.SameButWords lines lines' := by
  rw [← List.forall₂_eq_eq_eq, List.forall₂_map_left_iff, List.forall₂_map_right_iff] at h
  exact h.imp fun _ _ => Line.sameButWords_of_blank

namespace Hierarchy

/-- Hierarchies that agree in everything but the data words of the L2 and of the memories. -/
structure SameButWords (h h' : Hierarchy) : Prop where
  l1 : h.l1 = h'.l1
  interconnect : h.interconnect = h'.interconnect
  dram : h.dram = h'.dram
  misses : h.l2.misses = h'.l2.misses
  cycle : h.cycle = h'.cycle
  counters : h.counters = h'.counters
  geometry : h.l2.store.geometry = h'.l2.store.geometry
  clock : h.l2.store.clock = h'.l2.store.clock
  sets : List.Forall₂ (List.Forall₂ Line.SameButWords)
    h.l2.store.sets.toList h'.l2.store.sets.toList

theorem sameButWords_of_blank {h h' : Hierarchy} (heq : h.blank = h'.blank) :
    h.SameButWords h' where
  l1 := congrArg (·.l1) heq
  interconnect := congrArg (·.interconnect) heq
  dram := congrArg (·.dram) heq
  misses := congrArg (·.l2.misses) heq
  cycle := congrArg (·.cycle) heq
  counters := congrArg (·.counters) heq
  geometry := congrArg (·.l2.store.geometry) heq
  clock := congrArg (·.l2.store.clock) heq
  sets := by
    have hsets : h.l2.store.blank.sets.toList = h'.l2.store.blank.sets.toList :=
      congrArg (·.l2.store.sets.toList) heq
    rw [LineStore.blank, LineStore.blank, Array.toList_map, Array.toList_map,
      ← List.forall₂_eq_eq_eq, List.forall₂_map_left_iff, List.forall₂_map_right_iff] at hsets
    exact hsets.imp fun _ _ => Line.forall₂_of_blank

/-- What is loaded is data. -/
theorem load_blank {h h' : Hierarchy} {kind : Kind} {address : Nat} {words : List Word}
    (hload : h.load kind address words = .ok h') : h'.blank = h.blank := by
  obtain ⟨memory, hmemory, hload⟩ := bind_eq_ok.mp hload
  obtain rfl := Except.ok.inj hload
  obtain ⟨hbytes, hsize⟩ := load_memory hmemory
  rw [Memory.sizeBytes, Memory.sizeBytes, hbytes] at hsize
  have hblank : memory.blank = (h.memories.get kind).memory.blank :=
    Memory.blank_eq hbytes (Nat.eq_of_mul_eq_mul_right (Memory.wordBytes_pos _) hsize)
  have hmemories : (h.memories.set kind { h.memories.get kind with memory }).map Port.blank
      = h.memories.map Port.blank := by
    apply PerKind.map_set_of_eq
    exact congrArg (fun memory : Memory => { (h.memories.get kind).blank with memory }) hblank
  rw [blank, hmemories]
  rfl

theorem preload_blank : ∀ (loads : List Preload) {h h' : Hierarchy},
    h.preload loads = .ok h' → h'.blank = h.blank
  | [], h, h', hload => by rw [Except.ok.inj hload]
  | l :: rest, h, h', hload => by
    rw [preload, List.foldlM_cons] at hload
    obtain ⟨h₁, hstep, hload⟩ := bind_eq_ok.mp hload
    exact (preload_blank rest hload).trans (load_blank hstep)

/-- How two runs end that differ in data words only: both go through, with the same replies and in
states that differ in data words only, or both stop at a number that does not fit its word. -/
inductive EndAlike : Except Fault (List (Action × Reply) × Hierarchy) →
    Except Fault (List (Action × Reply) × Hierarchy) → Prop
  | through {history history' : List (Action × Reply)} {h h' : Hierarchy}
      (replies : history.map Prod.snd = history'.map Prod.snd) (states : h.SameButWords h') :
      EndAlike (.ok (history, h)) (.ok (history', h'))
  | overflow : EndAlike (.error .overflow) (.error .overflow)

/-- Runs that look alike without data end alike. -/
theorem run_alike {start start' : Hierarchy} (hstart : start.blank = start'.blank)
    {actions actions' : List Action} (hsame : actions.map Action.blank = actions'.map Action.blank)
    {P : List (Action × Reply) × Hierarchy → Prop}
    (hruns : Ends (record perform start actions) Overflows P) :
    EndAlike (record perform start actions) (record perform start' actions') := by
  have hrun := run_blank actions start []
  have hrun' := run_blank actions' start' []
  rw [hstart, hsame, hrun'] at hrun
  cases hfirst : record perform start actions with
  | error f =>
    obtain rfl : f = .overflow := hruns.of_error hfirst
    cases hsecond : record perform start' actions' with
    | error f' =>
      rw [hfirst, hsecond] at hrun
      rw [Except.error.inj hrun]
      exact .overflow
    | ok r' =>
      rw [hfirst, hsecond] at hrun
      cases hrun
  | ok r =>
    cases hsecond : record perform start' actions' with
    | error f' =>
      rw [hfirst, hsecond] at hrun
      cases hrun
    | ok r' =>
      rw [hfirst, hsecond] at hrun
      obtain ⟨hhistory, hstates⟩ := Prod.mk.inj (Except.ok.inj hrun)
      refine .through ?_ (sameButWords_of_blank hstates.symm)
      have hreplies := congrArg (List.map Prod.snd) hhistory
      rw [List.map_map, List.map_map] at hreplies
      exact hreplies.symm

/-- **Timing does not depend on data.** Two runs of one configuration that differ only in what is
preloaded and in the words written are alike after every step. -/
theorem timing_independent_of_data {c : Config} {h₀ start start' : Hierarchy}
    {loads loads' : List Preload} (hbuild : ofConfig? c = .ok h₀)
    (hload : h₀.preload loads = .ok start) (hload' : h₀.preload loads' = .ok start')
    {actions actions' : List Action} (hsame : actions.map Action.blank = actions'.map Action.blank)
    (hactions : ∀ action ∈ actions, action.InRange c.general.memoryBytes.toNat) (n : ℕ) :
    EndAlike (record perform start (actions.take n)) (record perform start' (actions'.take n)) := by
  obtain ⟨g, -, hs, -⟩ := start_sound hbuild hload
  have hstart : start.blank = start'.blank :=
    (preload_blank loads hload).trans (preload_blank loads' hload').symm
  have htaken : (actions.take n).map Action.blank = (actions'.take n).map Action.blank := by
    rw [List.map_take, hsame, List.map_take]
  exact run_alike hstart htaken
    (run_sound hs (actions.take n) fun action h => hactions action (List.mem_of_mem_take h))

/-- A block of data is written, driven out and written back. In the second run it has other words to
begin with and another word is written. -/
theorem timing_independent_of_data_written_back :
    ∃ (c : Config) (h₀ start start' : Hierarchy) (actions actions' : List Action)
      (r r' : List (Action × Reply) × Hierarchy),
      ofConfig? c = .ok h₀ ∧ h₀.preload [⟨.data, 0, [5, 6, 7, 8]⟩] = .ok start
        ∧ h₀.preload [⟨.data, 0, [1, 2]⟩] = .ok start'
        ∧ .write 0 9 ∈ actions ∧ .write 0 3 ∈ actions'
        ∧ actions.map Action.blank = actions'.map Action.blank
        ∧ (∀ action ∈ actions, action.InRange c.general.memoryBytes.toNat)
        ∧ record perform start actions = .ok r ∧ record perform start' actions' = .ok r'
        ∧ r.2.dataWord 0 = .ok 9 ∧ r'.2.dataWord 0 = .ok 3
        ∧ r.1.map Prod.snd = r'.1.map Prod.snd ∧ r.2.SameButWords r'.2 := by
  let actions (word : Word) : List Action :=
    [.access .data 0, .tick, .tick, .tick, .tick, .write 0 word, .access .instruction 0, .tick,
      .tick, .tick, .tick]
  obtain ⟨h₀, hbuild, start, hload, start', hload', r, hrun, r', hrun', hdata, hdata'⟩ : ∃ h₀,
      ofConfig?
          { general := { wordBits := 8, memoryBytes := 16 }
            caches := { l1Instruction := ⟨4, 1, 4⟩, l1Data := ⟨4, 1, 4⟩, l2 := ⟨8, 1, 4⟩ }
            missTracking := { entries := 2 }
            latencies := ⟨1, 1, 1⟩
            dram := ⟨1, 4, 1, 1, 1⟩ } = .ok h₀
        ∧ ∃ start, h₀.preload [⟨.data, 0, [5, 6, 7, 8]⟩] = .ok start
        ∧ ∃ start', h₀.preload [⟨.data, 0, [1, 2]⟩] = .ok start'
        ∧ ∃ r, record perform start (actions 9) = .ok r
        ∧ ∃ r', record perform start' (actions 3) = .ok r'
          ∧ r.2.dataWord 0 = .ok 9 ∧ r'.2.dataWord 0 = .ok 3 :=
    ⟨_, rfl, _, rfl, _, rfl, _, rfl, _, rfl, rfl, rfl⟩
  have hactions : ∀ action ∈ actions 9, action.InRange 16 := by
    simp [actions, Action.InRange]
  have hsame : (actions 9).map Action.blank = (actions 3).map Action.blank := rfl
  have halike : EndAlike (record perform start (actions 9)) (record perform start' (actions 3)) :=
    timing_independent_of_data hbuild hload hload' hsame hactions 11
  rw [hrun, hrun'] at halike
  cases halike with
  | through hreplies hstates =>
    exact ⟨_, h₀, start, start', actions 9, actions 3, _, _, hbuild, hload, hload',
      by simp [actions], by simp [actions], hsame, hactions, hrun, hrun', hdata, hdata', hreplies,
      hstates⟩

end Hierarchy

end MemoryHierarchy
