import MemoryHierarchy.Proofs.Hierarchy.Invariant

/-!
What every action keeps.

A hierarchy takes accesses, writes, cancellations and ticks in any order. Each keeps the
invariant (`perform_sound`), and so does a run of them (`run_sound`) from the state that a
configuration is built to (`build_sound`). No action ends in a fault but for a number that does
not fit its word.
-/

namespace MemoryHierarchy.Hierarchy

open LineStore

variable {frame : Frame} {contents : Kind → Nat → Word} {held : List BlockRef} {h : Hierarchy}
  {b : BlockRef}

/-! ## Accesses, writes and cancellations -/

theorem checkAddress_eq (hs : h.Sound frame contents held) {a : Nat} (ha : a < frame.memoryBytes) :
    h.checkAddress a = .ok () := by
  rw [checkAddress, if_pos]
  rw [hs.memoryBytes]
  exact ha

theorem access_sound (hs : h.Sound frame contents held) (kind : Kind) {a : Nat}
    (ha : a < frame.memoryBytes) :
    Ends (h.access kind a) Overflows fun r => r.2.Sound frame contents held := by
  rw [access]
  apply Ends.bind_ok (checkAddress_eq hs ha)
  apply Ends.bind' (lookUp_sound hs kind a)
  intro found hfound
  obtain ⟨lookup, h'⟩ := found
  obtain ⟨hs', hmiss⟩ := hfound
  cases lookup with
  | hit => exact Ends.pure' hs'
  | miss p =>
    obtain ⟨haddress, hread⟩ := hmiss p rfl
    apply Ends.bind' (probe_sound hs' p (haddress ▸ ha))
    intro probed hprobed
    obtain ⟨response, h''⟩ := probed
    have hs'' := hprobed.1
    -- An L1 asks for reads only, and a read leaves the contents as they are.
    apply Ends.pure'
    show h''.Sound frame contents held
    cases response with
    | hit =>
      rw [afterProbe, hread] at hs''
      exact hs''
    | miss disposition => exact hs''

/-- The contents after a write that ended like this. -/
def afterWrite (g : Geometry) (a : Nat) (word : Word) (outcome : Outcome)
    (contents : Kind → Nat → Word) : Kind → Nat → Word :=
  match outcome with
  | .hit => (Operation.write word).store .data (g.wordIndex a) contents
  | .miss => contents

/-- A write that hits stores its word in a resident block. -/
theorem write_sound (hs : h.Sound frame contents held) {a : Nat} (ha : a < frame.memoryBytes)
    (word : Word) :
    Ends (h.write a word) Overflows fun r =>
      r.2.Sound frame (afterWrite frame.geometry a word r.1 contents) held
        ∧ (r.1 = .hit → r.2.l2.store.Resident ⟨(frame.geometry.locate a).block, .data⟩) := by
  rw [write]
  apply Ends.bind_ok (checkAddress_eq hs ha)
  apply Ends.bind' (lookUp_sound hs .data a)
  intro found hfound
  apply Ends.bind' (probe_sound hfound.1 ⟨a, .data, .write word⟩ ha)
  intro probed hprobed
  obtain ⟨response, h''⟩ := probed
  obtain ⟨hs'', hres⟩ := hprobed
  apply Ends.bind' (Counters.incrementIf_ends _ _ _)
  intro counters _
  apply Ends.pure'
  cases response with
  | hit => exact ⟨hs''.withCounters counters, fun _ => hres rfl⟩
  | miss disposition => exact ⟨hs''.withCounters counters, fun hhit => nomatch hhit⟩

theorem cancel_sound (hs : h.Sound frame contents held) (kind : Kind) (a : Nat) :
    Ends (h.cancel kind a) Overflows fun r => r.2.Sound frame contents held := by
  rw [cancel]
  apply Ends.bind' (Counters.incrementIf_ends _ _ _)
  intro counters _
  exact Ends.pure' (hs.withMisses (MissTable.capacity_mark _ _ _) (MissTable.blocks_mark _ _ _) rfl
    counters)

/-! ## Deliveries -/

theorem arriveAtL1_sound (hs : h.Sound frame contents held) (b : BlockRef) :
    Ends (h.arriveAtL1 b) Overflows (Sound frame contents held) := by
  rw [arriveAtL1]
  apply Ends.bind' ((L1.insert_spec (hs.l1 b.kind) b.address).mono
    (fun _ => Exhausted.overflows) fun _ h => h)
  intro inserted hinserted
  apply Ends.bind' (Counters.incrementIf_ends _ _ _)
  intro counters _
  exact Ends.pure' (hs.withL1 (hs.l1_set b.kind hinserted.1.shaped) h.cycle counters)

/-- A held block becomes a memory request. -/
theorem arriveAtMemory_sound (hs : h.Sound frame contents (b :: held)) :
    Ends (h.arriveAtMemory b) Overflows (Sound frame contents held) := by
  rw [arriveAtMemory]
  apply Ends.bind' (Dram.Controller.add_requests hs.dram b h.cycle)
  intro queued hqueued
  obtain ⟨r, dram⟩ := queued
  obtain ⟨hdram, hrequests⟩ := hqueued
  apply Ends.bind' (Counters.increment_ends _ _)
  intro counters _
  refine Ends.pure' { hs with dram := hdram, tracked := ?_ }
  show h.l2.misses.blocks.Perm (held ++ (carried _ ++ dram.requests.map (·.block)))
  -- The block moves from those held to the end of the queue.
  rw [hrequests, ← List.append_assoc, ← List.append_assoc]
  apply hs.tracked.trans
  rw [List.cons_append, inTransit, ← List.append_assoc]
  exact (List.perm_append_singleton _ _).symm

/-- A held block is sent to the L2. -/
theorem sendBack_sound (hs : h.Sound frame contents (b :: held)) :
    Ends (h.sendBack b) Overflows (Sound frame contents held) := by
  rw [sendBack]
  apply Ends.bind' (Counters.increment_ends _ _)
  intro counters _
  refine Ends.pure' { hs with tracked := ?_ }
  have hsend := h.interconnect.carried_sendOn .memoryToL2 (by decide) b
  show h.l2.misses.blocks.Perm (held ++ (carried _ ++ h.dram.requests.map (·.block)))
  rw [hsend, List.append_assoc, List.singleton_append]
  apply hs.tracked.trans
  rw [List.cons_append, inTransit, ← List.append_assoc, ← List.append_assoc]
  exact List.perm_middle.symm

/-- A held block is outstanding, under the name it has, and it can arrive. -/
theorem held_arrival (hs : h.Sound frame contents (b :: held)) :
    b ∈ h.l2.misses.blocks ∧ h.l2.waiting b = b
      ∧ Ends (h.l2.fill b h.interconnect h.memories) h.l2.store.Exhausted
          (h.l2.Arrival (fun _ => frame.memoryBytes) contents b h.interconnect) := by
  have hb : b ∈ h.l2.misses.blocks := hs.tracked.mem_iff.mpr (List.mem_cons_self ..)
  have hcanonical := hs.canonical b hb
  rw [← hs.geometry] at hcanonical
  have hwaiting : h.l2.waiting b = b := BlockRef.eq_of hcanonical rfl
  refine ⟨hb, hwaiting, L2.fill_spec hs.coherent b ?_ h.interconnect⟩
  rw [hwaiting]
  exact hs.inside b hb

/-- A held block arrives at the L2: its miss is settled and the block is resident. -/
theorem arriveAtL2_sound (hs : h.Sound frame contents (b :: held)) :
    Ends (h.arriveAtL2 b) Overflows (Sound frame contents held) := by
  obtain ⟨hb, hwaiting, hfill⟩ := held_arrival hs
  rw [arriveAtL2]
  apply Ends.bind' (hfill.mono (fun _ => Exhausted.overflows) fun _ h => h)
  intro r hr
  apply Ends.bind' (Counters.increment_ends _ _)
  intro counters _
  apply Ends.bind' (Counters.incrementIf_ends _ _ _)
  intro counters' _
  apply Ends.pure'
  have herase := MissTable.blocks_erase hb
  have hmisses : r.cache.misses = h.l2.misses.erase b := by rw [hr.misses, hwaiting]
  have hnodup := herase.nodup_iff.mp hs.nodup
  have hmem : ∀ b' ∈ (h.l2.misses.erase b).blocks, b' ∈ h.l2.misses.blocks :=
    fun b' hb' => herase.mem_iff.mpr (List.mem_cons_of_mem _ hb')
  have hcarried : carried r.interconnect.messages = carried h.interconnect.messages := by
    rw [hr.interconnect]
    split
    · exact Interconnect.carried_announce _ _
    · rfl
  -- The table and the held blocks lose `b`; all other parts are as they were.
  refine { geometry := hr.geometry.trans hs.geometry, memoryBytes := hs.memoryBytes,
           missSlots := ?_, l1 := hs.l1, dram := hs.dram, coherent := hr.coherent, tracked := ?_,
           nodup := ?_, canonical := ?_, inside := ?_, absent := ?_ }
  · show r.cache.misses.capacity = _
    rw [hmisses, MissTable.capacity_erase]
    exact hs.missSlots
  · show r.cache.misses.blocks.Perm (held ++ (carried _ ++ _))
    rw [hmisses, hcarried]
    exact (herase.symm.trans hs.tracked).cons_inv
  · show r.cache.misses.blocks.Nodup
    rw [hmisses]
    exact (List.nodup_cons.mp hnodup).2
  · intro b' hb'
    exact hs.canonical b' (hmem b' (hmisses ▸ hb'))
  · intro b' hb'
    exact hs.inside b' (hmem b' (hmisses ▸ hb'))
  · intro b' hb' hres
    have hb'' : b' ∈ (h.l2.misses.erase b).blocks := hmisses ▸ hb'
    rcases hr.only b' hres with heq | hres
    · -- the block that came is no longer outstanding
      rw [heq, hwaiting] at hb''
      exact (List.nodup_cons.mp hnodup).1 hb''
    · exact hs.absent b' (hmem b' hb'') hres

theorem deliver_sound {m : Message} {due : List Message}
    (hs : h.Sound frame contents (carried (m :: due))) :
    Ends (h.deliver m) Overflows (Sound frame contents (carried due)) := by
  obtain ⟨b, remaining, route⟩ := m
  rw [deliver]
  apply Ends.bind' (Counters.increment_ends _ _)
  intro counters _
  have hs' := hs.withCounters counters
  cases route with
  | l2ToL1 => exact arriveAtL1_sound hs' b
  | l2ToMemory => exact arriveAtMemory_sound hs'
  | memoryToL2 => exact arriveAtL2_sound hs'

/-! ## Ticks -/

/-- The messages that are due are held until they are delivered. -/
theorem due_sound (hs : h.Sound frame contents []) :
    { h with interconnect := h.interconnect.tick.2 }.Sound frame contents
      (carried h.interconnect.tick.1) := by
  refine { hs with tracked := ?_ }
  apply hs.tracked.trans
  rw [List.nil_append, inTransit, inTransit, ← List.append_assoc]
  exact h.interconnect.carried_tick.symm.append_right _

theorem deliver_all_sound (due : List Message) (hs : h.Sound frame contents (carried due)) :
    Ends (due.foldlM deliver h) Overflows (Sound frame contents []) :=
  Ends.foldlM' (fun due h => Sound frame contents (carried due) h)
    (fun _ _ _ hs => deliver_sound hs) due h hs

theorem tickMemory_sound (hs : h.Sound frame contents []) :
    Ends h.tickMemory Overflows (Sound frame contents []) := by
  rw [tickMemory]
  apply Ends.bind' (Dram.Controller.tick_requests hs.dram h.cycle)
  intro ticked hticked
  obtain ⟨done, dram⟩ := ticked
  obtain ⟨hdram, hrequests⟩ := hticked
  -- the retired blocks are held until they are sent back
  have hheld : { h with dram }.Sound frame contents done.retired := by
    refine { hs with dram := hdram, tracked := ?_ }
    apply hs.tracked.trans
    show (carried h.interconnect.messages ++ h.dram.requests.map (·.block)).Perm
      (done.retired ++ (carried h.interconnect.messages ++ dram.requests.map (·.block)))
    apply (hrequests.symm.append_left _).trans
    rw [← List.append_assoc, ← List.append_assoc]
    exact List.perm_append_comm.append_right _
  apply Ends.bind' (Ends.foldlM' (fun held h => Sound frame contents held h)
    (fun _ _ _ hs => sendBack_sound hs) done.retired _ hheld)
  intro h' hs'
  cases done.started? with
  | none => exact Ends.pure' hs'
  | some request =>
    apply Ends.bind' (Counters.countRow_ends _ _)
    intro counters _
    exact Ends.pure' (hs'.withCounters counters)

theorem tick_sound (hs : h.Sound frame contents []) :
    Ends h.tick Overflows (Sound frame contents []) := by
  rw [tick]
  apply Ends.bind' (deliver_all_sound _ (due_sound hs))
  intro h₁ hs₁
  apply Ends.bind' (tickMemory_sound hs₁)
  intro h₂ hs₂
  apply Ends.bind' (sum64_spec _ _)
  intro cycle _
  exact Ends.pure' (hs₂.withL1 hs₂.l1 cycle _)

/-! ## Runs -/

/-- What is done to a hierarchy. -/
inductive Action where
  | access (kind : Kind) (address : Nat)
  | write (address : Nat) (word : Word)
  | cancel (kind : Kind) (address : Nat)
  | tick
  deriving Repr, DecidableEq

/-- What it answers. -/
inductive Reply where
  | accessed (outcome : Outcome)
  | written (outcome : Outcome)
  | cancelled (outstanding : Bool)
  | ticked
  deriving Repr, DecidableEq

/-- One action. -/
def perform (h : Hierarchy) : Action → Except Fault (Reply × Hierarchy)
  | .access kind address => do
    let (outcome, h) ← h.access kind address
    return (.accessed outcome, h)
  | .write address word => do
    let (outcome, h) ← h.write address word
    return (.written outcome, h)
  | .cancel kind address => do
    let (outstanding, h) ← h.cancel kind address
    return (.cancelled outstanding, h)
  | .tick => return (.ticked, ← h.tick)

/-- What is accessed or written lies in a memory of so many bytes. -/
def Action.InRange (memoryBytes : Nat) : Action → Prop
  | .access _ address => address < memoryBytes
  | .write address _ => address < memoryBytes
  | .cancel _ _ => True
  | .tick => True

/-- The word that an action stores at position `j` of path `kind`, if it was answered like this.
Only a write that hits stores one. -/
def stored? (g : Geometry) (kind : Kind) (j : Nat) : Action × Reply → Option Word
  | (.write address word, .written .hit) =>
    if kind = .data ∧ j = g.wordIndex address then some word else none
  | _ => none

/-- The word last stored at position `j` of path `kind`. The latest action comes first. -/
def lastStored? (g : Geometry) (kind : Kind) (j : Nat) (history : List (Action × Reply)) :
    Option Word :=
  history.findSome? (stored? g kind j)

/-- The contents after the actions of `history`. -/
def contentsAfter (g : Geometry) (contents : Kind → Nat → Word)
    (history : List (Action × Reply)) : Kind → Nat → Word :=
  fun kind j => (lastStored? g kind j history).getD (contents kind j)

theorem contentsAfter_cons (g : Geometry) (contents : Kind → Nat → Word) (entry : Action × Reply)
    (history : List (Action × Reply)) :
    contentsAfter g contents (entry :: history)
      = fun kind j => (stored? g kind j entry).getD (contentsAfter g contents history kind j) := by
  funext kind j
  exact findSome?_cons_getD (stored? g kind j) entry history (contents kind j)

/-- Every action keeps the invariant. It changes the contents by what it stores. -/
theorem perform_sound (hs : h.Sound frame contents []) {action : Action}
    (haction : action.InRange frame.memoryBytes) :
    Ends (h.perform action) Overflows fun r =>
      r.2.Sound frame
        (fun kind j => (stored? frame.geometry kind j (action, r.1)).getD (contents kind j))
        [] := by
  cases action with
  | access kind a =>
    apply Ends.bind' (access_sound hs kind haction)
    intro accessed hs'
    exact Ends.pure' hs'
  | write a word =>
    apply Ends.bind' (write_sound hs haction word)
    intro written hwritten
    obtain ⟨outcome, h'⟩ := written
    have hs' := hwritten.1
    apply Ends.pure'
    cases outcome with
    | miss => exact hs'
    | hit =>
      rw [afterWrite, Operation.store_write] at hs'
      exact hs'
  | cancel kind a =>
    apply Ends.bind' (cancel_sound hs kind a)
    intro cancelled hs'
    exact Ends.pure' hs'
  | tick =>
    apply Ends.bind' (tick_sound hs)
    intro h' hs'
    exact Ends.pure' hs'

/-- What holds after the actions in `past`, with `rest` still to come. -/
structure Holds (frame : Frame) (contents : Kind → Nat → Word) (rest : List Action)
    (past : List (Action × Reply)) (h : Hierarchy) : Prop where
  inRange : ∀ action ∈ rest, action.InRange frame.memoryBytes
  pastInRange : ∀ entry ∈ past, entry.1.InRange frame.memoryBytes
  sound : h.Sound frame (contentsAfter frame.geometry contents past) []

theorem Holds.perform {action : Action} {rest : List Action} {past : List (Action × Reply)}
    (hh : h.Holds frame contents (action :: rest) past) :
    Ends (h.perform action) Overflows fun r =>
      r.2.Holds frame contents rest ((action, r.1) :: past) := by
  have haction := hh.inRange action (List.mem_cons_self ..)
  apply (perform_sound hh.sound haction).weaken
  intro r hs
  refine ⟨fun action h => hh.inRange action (List.mem_cons_of_mem _ h),
    List.forall_mem_cons.mpr ⟨haction, hh.pastInRange⟩, ?_⟩
  rw [contentsAfter_cons]
  exact hs

/-- Runs keep the invariant, and what they did was in range. -/
theorem run_sound (hs : h.Sound frame contents []) (actions : List Action)
    (hactions : ∀ action ∈ actions, action.InRange frame.memoryBytes) :
    Ends (record perform h actions) Overflows fun r => r.2.Holds frame contents [] r.1 := by
  apply Ends.record (Holds frame contents)
  · intro action rest past h hh
    exact hh.perform
  · exact ⟨hactions, List.forall_mem_nil _, hs⟩

/-! ## The first state -/

/-- What a hierarchy of a configuration never changes. -/
def Frame.ofConfig (c : Config) (g : Config.Geometries) : Frame where
  geometry := g.l2
  memoryBytes := c.general.memoryBytes.toNat
  missSlots := c.missTracking.entries.toNat

/-- The words of the memories, position by position. -/
def wordsOf (memories : PerKind Port) (kind : Kind) (j : Nat) : Word :=
  (memories.get kind).memory.words[j]?.getD 0

/-- A hierarchy is sound when it is built, whatever its memories hold. -/
theorem build_sound {c : Config} {g : Config.Geometries} (hc : c.validate = .ok g)
    (memories : PerKind Port) (hfits : ∀ kind, (memories.get kind).Fits g.l2)
    (hsize : ∀ kind, (memories.get kind).memory.sizeBytes = c.general.memoryBytes.toNat) :
    { build c g with memories }.Sound (Frame.ofConfig c g) (wordsOf memories) [] := by
  have haccepted := Config.validate_accepted hc
  obtain ⟨k, hbanks⟩ := haccepted.banks
  have hcoherent := Coherent.empty .data hfits
  have hsizes : (fun kind => (memories.get kind).memory.sizeBytes)
      = fun _ => c.general.memoryBytes.toNat := funext hsize
  rw [hsizes] at hcoherent
  have hempty := MissTable.blocks_empty c.missTracking.entries.toNat
  have hnone : ∀ b, b ∉ (build c g).l2.misses.blocks := by
    intro b hb
    rw [show (build c g).l2.misses.blocks = [] from hempty] at hb
    cases hb
  refine { geometry := rfl, memoryBytes := rfl, missSlots := List.length_replicate, l1 := ?_,
           dram := Dram.Controller.idle_sound hbanks, coherent := hcoherent, tracked := ?_,
           nodup := ?_, canonical := fun b hb => absurd hb (hnone b),
           inside := fun b hb => absurd hb (hnone b), absent := fun b hb => absurd hb (hnone b) }
  · intro kind
    cases kind <;> exact empty_shaped _ _ 0
  · show (MissTable.empty _).blocks.Perm []
    rw [hempty]
  · show (MissTable.empty _).blocks.Nodup
    rw [hempty]
    exact List.nodup_nil

/-- The memories of a configuration fit, and have the configured size. -/
theorem zeroed_fits {c : Config} {g : Config.Geometries} (hc : c.Accepted g) (kind : Kind) :
    ((build c g).memories.get kind).Fits g.l2
      ∧ ((build c g).memories.get kind).memory.sizeBytes = c.general.memoryBytes.toNat := by
  have hmemory : ((build c g).memories.get kind).memory
      = Memory.zeroed c.general.memoryBytes.toNat c.wordBytes := by
    cases kind <;> rfl
  have hbytes : (Memory.zeroed c.general.memoryBytes.toNat c.wordBytes).wordBytes
      = g.l2.word.bytes := by
    show max c.wordBytes 1 = _
    rw [hc.wordBytes_eq]
    exact Nat.max_eq_left g.l2.word.bytes_pos
  have hsize : (Memory.zeroed c.general.memoryBytes.toNat c.wordBytes).sizeBytes
      = c.general.memoryBytes.toNat := by
    rw [Memory.sizeBytes, hbytes]
    show (Array.replicate (_ / max c.wordBytes 1) 0).size * _ = _
    rw [Array.size_replicate, hc.wordBytes_eq, Nat.max_eq_left g.l2.word.bytes_pos]
    exact Nat.div_mul_cancel (Nat.dvd_trans g.l2.bytes_dvd_lineBytes hc.lineBytes_dvd)
  rw [hmemory]
  refine ⟨⟨hmemory ▸ hbytes, ?_⟩, hsize⟩
  rw [hmemory, hsize]
  exact hc.lineBytes_dvd

theorem ofConfig?_sound {c : Config} (hbuild : ofConfig? c = .ok h) :
    ∃ g, c.validate = .ok g ∧ h = build c g
      ∧ h.Sound (Frame.ofConfig c g) (wordsOf h.memories) [] := by
  obtain ⟨g, hg, hh⟩ := bind_eq_ok.mp hbuild
  obtain rfl := Except.ok.inj hh
  have hfits := zeroed_fits (Config.validate_accepted hg)
  exact ⟨g, hg, rfl, build_sound hg (build c g).memories (fun kind => (hfits kind).1)
    fun kind => (hfits kind).2⟩

end MemoryHierarchy.Hierarchy
