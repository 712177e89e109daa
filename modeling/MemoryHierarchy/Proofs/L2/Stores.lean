import MemoryHierarchy.Proofs.L2.Answers

/-!
No word that was stored in the L2 is lost, and none turns up elsewhere.

A `Machine` is an L2 with the memories behind it, and takes probes, arrivals and cancellations in
any order. The word that is visible at an address comes from the resident block or else from
memory. After any calls it is the last one that a write to this word of this path has stored,
or the word that memory had in the beginning (`visible_last_stored`).
-/

namespace MemoryHierarchy.L2

open LineStore

/-- What an L2 is asked to do. -/
inductive Call where
  | probe (p : Probe)
  | fill (block : BlockRef)
  | cancel (address : Nat) (kind : Kind)
  deriving Repr, DecidableEq

/-- What comes of it. -/
inductive Answer where
  | probed (response : Response)
  | filled (wroteBack? : Option BlockRef) (notified : Bool)
  | cancelled (outstanding : Bool)
  deriving Repr, DecidableEq

/-- An L2, the interconnect it sends on and the memories behind it. -/
structure Machine where
  cache : L2
  interconnect : Interconnect
  memories : PerKind Port
  deriving Repr, DecidableEq

/-- The word that a call stores at position `j` of path `kind`, if it was answered like this. Only
a write that hits stores one. -/
def stored? (g : Geometry) (kind : Kind) (j : Nat) : Call × Answer → Option Word
  | (.probe { address, kind := k, operation := .write word }, .probed .hit) =>
    if kind = k ∧ j = g.wordIndex address then some word else none
  | _ => none

/-- The word last stored at position `j` of path `kind`. The latest call comes first. -/
def lastStored? (g : Geometry) (kind : Kind) (j : Nat) (history : List (Call × Answer)) :
    Option Word :=
  history.findSome? (stored? g kind j)

namespace Machine

/-- Does what is asked. -/
def perform (m : Machine) : Call → Except Fault (Answer × Machine)
  | .probe p => do
    let r ← m.cache.probe p m.interconnect
    return (.probed r.response, { m with cache := r.cache, interconnect := r.interconnect })
  | .fill block => do
    let r ← m.cache.fill block m.interconnect m.memories
    return (.filled r.wroteBack? r.notified,
      { cache := r.cache, interconnect := r.interconnect, memories := r.memories })
  | .cancel address kind =>
    let (outstanding, cache) := m.cache.cancel address kind
    .ok (.cancelled outstanding, { m with cache })

/-- The word at an address in memory. -/
def backing (memories : PerKind Port) (g : Geometry) (kind : Kind) (a : Nat) : Except Fault Word :=
  (memories.get kind).memory.readWord (g.wordIndex a * g.word.bytes)

/-- The word at an address: that of the resident block, or else that of memory. -/
def visible (m : Machine) (kind : Kind) (a : Nat) : Except Fault Word := do
  match ← m.cache.readWord? a kind with
  | some word => return word
  | none => backing m.memories m.cache.store.geometry kind a

/-- The address lies in the memory of its path. -/
def Inside (memories : PerKind Port) (g : Geometry) (kind : Kind) (a : Nat) : Prop :=
  a % g.span < (memories.get kind).memory.sizeBytes

/-- What arrives lies in the memory of its path. -/
def Admissible (memories : PerKind Port) (g : Geometry) : Call → Prop
  | .fill block => Inside memories g block.kind block.address
  | _ => True

/-- Every clean line has the words that memory has. -/
def CleanLinesMatch (m : Machine) : Prop :=
  ∀ index way line, m.cache.store.line? index way = some line → line.valid = true →
    line.dirty = false →
    (m.memories.get line.kind).memory.readBlock
        (m.cache.store.geometry.blockStart line.tag index) m.cache.store.geometry.wordsPerLine
      = .ok line.words

variable {m : Machine} {size : Kind → Nat} {contents : Kind → Nat → Word}

/-! ## What coherence makes visible -/

/-- What is visible is the contents. -/
theorem visible_eq (h : Coherent size m.cache.store m.memories contents) {kind : Kind} {a : Nat}
    (hlt : a % m.cache.store.geometry.span < size kind) :
    m.visible kind a = .ok (contents kind (m.cache.store.geometry.wordIndex a)) := by
  rw [visible, readWord?_eq h]
  by_cases hres : m.cache.store.Resident (m.cache.blockOf a kind)
  · rw [if_pos hres]
    rfl
  · rw [if_neg hres]
    exact h.readWord_eq hlt hres

theorem clean_lines_match (h : Coherent size m.cache.store m.memories contents) :
    m.CleanLinesMatch := by
  intro index way line hl hvalid hclean
  have hc : m.cache.store.CopyAt index way
      ⟨m.cache.store.geometry.blockStart line.tag index, line.kind⟩ line := ⟨hl, hvalid, rfl, rfl⟩
  exact h.readBlock_eq hc hclean

/-! ## Calls -/

/-- A call changes the contents by what it stores, and uses at most one clock value. -/
theorem perform_spec (h : Coherent size m.cache.store m.memories contents) (call : Call)
    (hcall : ∀ block, call = .fill block →
      block.address % m.cache.store.geometry.span < size block.kind) :
    Ends (m.perform call) m.cache.store.Exhausted fun r =>
      Coherent size r.2.cache.store r.2.memories
          (fun kind j => (stored? m.cache.store.geometry kind j (call, r.1)).getD (contents kind j))
        ∧ r.2.cache.store.geometry = m.cache.store.geometry
        ∧ r.2.cache.store.clock ≤ m.cache.store.clock + 1 := by
  cases call with
  | probe p =>
    apply Ends.bind' (probe_spec h.sound p m.interconnect)
    intro r hr
    rcases hr with ⟨way, line, hc, rfl⟩ | ⟨-, rfl⟩
    · refine Ends.pure' ⟨?_, rfl, Nat.le_refl _⟩
      have hperform := h.perform hc p.operation
      obtain ⟨a, k, operation⟩ := p
      cases operation with
      | read => exact hperform
      | write word =>
        rw [Operation.store_write] at hperform
        exact hperform
    · obtain ⟨disposition, hresponse⟩ := probeMiss_response m.cache p m.interconnect
      have hstore := probeMiss_store m.cache p m.interconnect
      apply Ends.pure'
      show Coherent size (m.cache.probeMiss p m.interconnect).cache.store m.memories _ ∧ _
      rw [hstore, hresponse]
      refine ⟨?_, rfl, Nat.le_succ _⟩
      have hnone : ∀ kind j, stored? m.cache.store.geometry kind j
          (.probe p, .probed (.miss disposition)) = none := by
        intro kind j
        obtain ⟨a, k, operation⟩ := p
        cases operation <;> rfl
      simp only [hnone, Option.getD_none]
      exact h
  | fill block =>
    have hlt : (m.cache.waiting block).address < size block.kind :=
      Nat.lt_of_le_of_lt (Geometry.locate_block_le_self _) (hcall block rfl)
    apply Ends.bind' (fill_spec h block hlt m.interconnect)
    intro r hr
    exact Ends.pure' ⟨hr.coherent, hr.geometry, Nat.le_of_eq hr.clock⟩
  | cancel address kind => exact ⟨h, rfl, Nat.le_succ _⟩

/-- What holds after the calls in `past`, with `rest` still to come. -/
structure Holds (g : Geometry) (memories : PerKind Port) (total : Nat) (rest : List Call)
    (past : List (Call × Answer)) (m : Machine) : Prop where
  admissible : ∀ call ∈ rest, Admissible memories g call
  count : past.length + rest.length = total
  clock : m.cache.store.clock ≤ past.length
  geometry : m.cache.store.geometry = g
  coherent : Coherent (fun kind => (memories.get kind).memory.sizeBytes) m.cache.store m.memories
    fun kind j => (lastStored? g kind j past).getD ((memories.get kind).memory.words[j]?.getD 0)

theorem Holds.perform {g : Geometry} {memories : PerKind Port} {total : Nat} {call : Call}
    {rest : List Call} {past : List (Call × Answer)}
    (h : Holds g memories total (call :: rest) past m) :
    Ends (m.perform call) (fun f => f = .overflow ∧ UInt64.size ≤ total) fun r =>
      Holds g memories total rest ((call, r.1) :: past) r.2 := by
  obtain ⟨hadmissible, hcount, hclock, rfl, hcoherent⟩ := h
  have hcall := hadmissible call (List.mem_cons_self ..)
  rw [List.length_cons] at hcount
  apply (perform_spec hcoherent call _).mono
  · -- the clock has counted no more than the calls
    intro f hf
    exact ⟨hf.1, by have := hf.2; omega⟩
  · intro r hr
    obtain ⟨hcoh, hgeometry, hclock'⟩ := hr
    refine ⟨fun c hc => hadmissible c (List.mem_cons_of_mem _ hc), ?_, ?_, hgeometry, ?_⟩
    · rw [List.length_cons]; omega
    · rw [List.length_cons]; omega
    · simp only [lastStored?, findSome?_cons_getD]
      exact hcoh
  · intro block hblock
    subst hblock
    exact hcall

/-- A run may go on with one more call. -/
theorem Holds.next {g : Geometry} {memories : PerKind Port} {total : Nat}
    {past : List (Call × Answer)} (h : Holds g memories total [] past m) (call : Call)
    (hcall : Admissible memories g call) :
    Ends (m.perform call) (fun f => f = .overflow ∧ UInt64.size ≤ total + 1) fun r =>
      Holds g memories (total + 1) [] ((call, r.1) :: past) r.2 := by
  have hcalls : ∀ c ∈ [call], Admissible memories g c := by
    intro c hc
    rw [List.mem_singleton.mp hc]
    exact hcall
  exact Holds.perform { h with
    admissible := hcalls, count := congrArg Nat.succ h.count }

theorem run_holds (g : Geometry) (missSlots : Nat) (ic : Interconnect) (memories : PerKind Port)
    (hfits : ∀ kind, (memories.get kind).Fits g) (calls : List Call)
    (hcalls : ∀ call ∈ calls, Admissible memories g call) :
    Ends (record perform ⟨L2.empty g missSlots, ic, memories⟩ calls)
      (fun f => f = .overflow ∧ UInt64.size ≤ calls.length) fun r =>
        Holds g memories calls.length [] r.1 r.2 := by
  apply Ends.record (Holds g memories calls.length)
  · intro call rest past m h
    exact h.perform
  · exact ⟨hcalls, Nat.zero_add _, Nat.le_refl _, rfl, Coherent.empty .data hfits⟩

/-- **No store is lost.** An L2 without any block takes calls in any order, over memories of whole
lines. The calls go through, unless they are more than the clock can count. Afterwards

* the visible word of an address is the one last stored there, or else the one that memory had in
  the beginning;
* one more call changes it only by what the call stores there;
* every clean line has the words that memory has. -/
theorem visible_last_stored (g : Geometry) (missSlots : Nat) (ic : Interconnect)
    (memories : PerKind Port) (hfits : ∀ kind, (memories.get kind).Fits g) (calls : List Call)
    (hcalls : ∀ call ∈ calls, Admissible memories g call) :
    Ends (record perform ⟨L2.empty g missSlots, ic, memories⟩ calls)
      (fun f => f = .overflow ∧ UInt64.size ≤ calls.length) fun (history, m) =>
        (∀ kind a, Inside memories g kind a →
          ∃ initial, backing memories g kind a = .ok initial
            ∧ m.visible kind a
              = .ok ((lastStored? g kind (g.wordIndex a) history).getD initial))
        ∧ (∀ call answer m', Admissible memories g call → m.perform call = .ok (answer, m') →
          ∀ kind a, Inside memories g kind a →
            stored? g kind (g.wordIndex a) (call, answer) = none →
            m'.visible kind a = m.visible kind a)
        ∧ m.CleanLinesMatch := by
  apply (run_holds g missSlots ic memories hfits calls hcalls).weaken
  intro r hr
  obtain ⟨history, m⟩ := r
  obtain ⟨-, -, -, rfl, hcoherent⟩ := hr
  refine ⟨?_, ?_, clean_lines_match hcoherent⟩
  · intro kind a ha
    have hempty := Coherent.empty .data hfits
    refine ⟨_, hempty.readWord_eq ha ?_, visible_eq hcoherent ha⟩
    exact not_resident_empty
  · intro call answer m' hcall hperform kind a ha hnone
    have hadmissible : ∀ block, call = .fill block →
        block.address % m.cache.store.geometry.span
          < (memories.get block.kind).memory.sizeBytes := by
      intro block hblock
      subst hblock
      exact hcall
    obtain ⟨hcoh, hgeometry, -⟩ := (perform_spec hcoherent call hadmissible).of_ok hperform
    have hvisible : m'.visible kind a = .ok _ := visible_eq hcoh (by rw [hgeometry]; exact ha)
    rw [hgeometry, hnone, Option.getD_none] at hvisible
    rw [hvisible, visible_eq hcoherent ha]

/-- One line of one byte: the second block to arrive drives out the first, and the word that was
stored in it is seen in memory. -/
theorem visible_last_stored_evicted :
    ∃ (g : Geometry) (memories : PerKind Port) (r : List (Call × Answer) × Machine),
      (∀ kind, (memories.get kind).Fits g)
        ∧ (∀ call ∈ [Call.fill ⟨0, .data⟩, .probe ⟨0, .data, .write 7⟩, .fill ⟨1, .data⟩],
          Admissible memories g call)
        ∧ record perform ⟨L2.empty g 1, Interconnect.empty ⟨1, 1, 1⟩, memories⟩
            [.fill ⟨0, .data⟩, .probe ⟨0, .data, .write 7⟩, .fill ⟨1, .data⟩] = .ok r
        ∧ r.2.cache.contains 0 .data = .ok false ∧ r.2.visible .data 0 = .ok 7 := by
  have hfits : ∀ kind, ((PerKind.both (Port.ofMemory (Memory.zeroed 4 1))).get kind).Fits
      ⟨.w8, 0, 0, 0, by decide, by decide, by decide⟩ := by
    intro kind
    cases kind <;> exact ⟨rfl, by decide⟩
  have hcalls : ∀ call ∈ [Call.fill ⟨0, .data⟩, .probe ⟨0, .data, .write 7⟩, .fill ⟨1, .data⟩],
      Admissible (PerKind.both (Port.ofMemory (Memory.zeroed 4 1)))
        ⟨.w8, 0, 0, 0, by decide, by decide, by decide⟩ call := by
    refine List.forall_mem_cons.mpr ⟨?_, List.forall_mem_cons.mpr ⟨trivial,
      List.forall_mem_cons.mpr ⟨?_, List.forall_mem_nil _⟩⟩⟩
    · show 0 % twoPow 8 < 4
      decide
    · show 1 % twoPow 8 < 4
      decide
  obtain ⟨r, hr, hgone, hstored⟩ : ∃ r,
      record perform
          ⟨L2.empty ⟨.w8, 0, 0, 0, by decide, by decide, by decide⟩ 1, Interconnect.empty ⟨1, 1, 1⟩,
            PerKind.both (Port.ofMemory (Memory.zeroed 4 1))⟩
          [.fill ⟨0, .data⟩, .probe ⟨0, .data, .write 7⟩, .fill ⟨1, .data⟩] = .ok r
        ∧ r.2.cache.contains 0 .data = .ok false
        ∧ lastStored? ⟨.w8, 0, 0, 0, by decide, by decide, by decide⟩ .data 0 r.1 = some 7 :=
    ⟨_, rfl, rfl, rfl⟩
  obtain ⟨initial, -, hvisible⟩ := ((visible_last_stored _ 1 _ _ hfits _ hcalls).of_ok hr).1 .data 0
    (by show 0 % twoPow 8 < 4; decide)
  refine ⟨_, _, r, hfits, hcalls, hr, hgone, ?_⟩
  rw [hvisible]
  exact congrArg (fun word => Except.ok (Option.getD word initial)) hstored

end Machine

end MemoryHierarchy.L2
