import MemoryHierarchy.BlockingCache
import MemoryHierarchy.Proofs.L2.Answers
import MemoryHierarchy.Proofs.Replacement

/-!
What an access to a blocking cache does.

An access first has its block in a line, where it was before or where it is brought (`bring_takes`,
`bring_coherent`), and then performs its operation on this line (`serve_spec`). So it changes one
line and the contents at one position (`serve_takes`, `serve_coherent`).
-/

namespace MemoryHierarchy

open LineStore

namespace BlockingCache

/-- What a blocking cache is asked for. -/
structure Access where
  address : Nat
  operation : Operation
  deriving Repr, DecidableEq

/-- Serves an access. -/
def serve (c : BlockingCache) (access : Access) (port : Port) :
    Except Fault (Served × BlockingCache × Port) :=
  match access.operation with
  | .read => c.read access.address port
  | .write word => c.write access.address word port

variable {c : BlockingCache} {memories : PerKind Port} {port : Port} {a : Nat} {access : Access}

/-! ## Bringing a block -/

/-- A miss brings its block in as an arrival at an L2 does. -/
theorem bring_miss (hs : c.store.Shaped c.store.geometry.wordsPerLine)
    (hp : c.store.OnePath c.kind) (a : Nat)
    (hfind : c.store.find (c.store.geometry.locate a).index (c.store.geometry.locate a).tag c.kind
      = .ok none) {way : Nat}
    (hvictim : c.store.victim (c.store.geometry.locate a).index = .ok way) :
    c.bring a (memories.get c.kind)
      = (L2.replace c.store (c.store.geometry.locate a) c.kind memories).map fun r =>
        { place := c.store.geometry.locate a, way, outcome := .miss
          cache := { c with store := r.2.1 }, port := r.2.2.get c.kind } := by
  obtain ⟨way', old, hvictim', hl⟩ := victim_spec hs (Geometry.locate_index_lt a)
  obtain rfl := Except.ok.inj (hvictim'.symm.trans hvictim)
  have hkind : old.kind = c.kind := hp _ _ _ hl
  simp only [bring, L2.replace, hfind, hvictim, line_eq hs hl, hkind, bind, Except.bind]
  -- The same steps on both sides; each may fault.
  cases (memories.get c.kind).writeBack c.store.geometry (c.store.geometry.locate a).index old with
  | error f => rfl
  | ok written =>
    obtain ⟨wrote?, port⟩ := written
    cases c.store.install (c.store.geometry.locate a).index way'
        (c.store.geometry.locate a).tag c.kind with
    | error f => rfl
    | ok installed =>
      simp only [PerKind.get_set_self]
      cases port.fetch c.store.geometry (c.store.geometry.locate a).block with
      | error f => rfl
      | ok fetched =>
        obtain ⟨words, port'⟩ := fetched
        simp only
        cases installed.putWords (c.store.geometry.locate a).index way' words with
        | error f => rfl
        | ok store => simp [Except.map, pure, Except.pure]

/-- What it takes to have a block in the cache: one line is used. -/
structure Brought (c : BlockingCache) (a : Nat) (p : Present) (new : Line) : Prop where
  place : p.place = c.store.geometry.locate a
  takes : c.store.Takes p.place.index p.place.tag c.kind (p.outcome == .hit) p.way new
  cache : p.cache = { c with store := c.store.used p.place.index p.way new }

theorem bring_takes (hs : c.store.Shaped c.store.geometry.wordsPerLine)
    (hp : c.store.OnePath c.kind) (a : Nat) (port : Port) :
    Ends (c.bring a port) (fun _ => True) fun p => ∃ new, c.Brought a p new := by
  have hi : (c.store.geometry.locate a).index < c.store.geometry.sets := Geometry.locate_index_lt a
  rcases find_spec hs hi (c.store.geometry.locate a).tag c.kind with
    ⟨way, line, hfind, hl, hholds⟩ | ⟨hfind, hno⟩
  · rw [bring]
    apply Ends.bind_ok hfind
    apply Ends.bind' ((touch_spec hs hl).faults fun _ _ => trivial)
    intro store hstore
    subst hstore
    exact Ends.pure' ⟨line, rfl, Takes.of_holds hl hholds hholds rfl, rfl⟩
  · obtain ⟨way, old, hvictim, hl⟩ := victim_spec hs hi
    rw [← PerKind.get_both port c.kind, bring_miss hs hp a hfind hvictim]
    apply (L2.replace_takes hs hi c.kind hno).map'
    intro r hr
    obtain ⟨way', new, htakes, hstore⟩ := hr
    obtain rfl := Except.ok.inj ((htakes.of_not_found rfl).1.symm.trans hvictim)
    exact ⟨new, rfl, htakes, by rw [hstore]⟩

/-- Bringing a block changes no contents. It is a hit exactly if the block was here. -/
theorem bring_coherent {sizes : Kind → Nat} {contents : Kind → Nat → Word}
    (h : Coherent sizes c.store memories contents) (hp : c.store.OnePath c.kind)
    (hlt : (c.store.geometry.locate a).block < sizes c.kind) :
    Ends (c.bring a (memories.get c.kind)) c.store.Exhausted fun p =>
      (∃ memories', p.port = memories'.get c.kind
        ∧ Coherent sizes p.cache.store memories' contents)
      ∧ (p.outcome = .hit ↔ c.store.Resident ⟨(c.store.geometry.locate a).block, c.kind⟩) := by
  rcases find_copy h.sound a c.kind with ⟨way, line, hfind, hc⟩ | ⟨hfind, hno⟩
  · rw [bring]
    apply Ends.bind_ok hfind
    apply Ends.bind' (touch_spec h.sound.shaped hc.here)
    intro store hstore
    subst hstore
    exact Ends.pure' ⟨⟨memories, rfl, h.touch hc⟩, fun _ => hc.resident, fun _ => rfl⟩
  · obtain ⟨way, old, hvictim, -⟩ := victim_spec h.sound.shaped (Geometry.locate_index_lt a)
    rw [bring_miss h.sound.shaped hp a hfind hvictim]
    apply (h.replace a c.kind hno hlt).map'
    intro r hr
    exact ⟨⟨r.2.2, rfl, hr.1⟩, fun hhit => Outcome.noConfusion hhit, fun hres => absurd hres hno⟩

/-! ## The operation -/

section Brought

variable {p : Present} {new : Line}

theorem Brought.line? (h : c.Brought a p new) :
    p.cache.store.line? p.place.index p.way = some { new with recency := c.store.clock + 1 } := by
  obtain ⟨old, hl⟩ := h.takes.exists_old
  rw [h.cache]
  exact (line?_used hl new _ _).trans (if_pos ⟨rfl, rfl⟩)

theorem Brought.shaped (hs : c.store.Shaped c.store.geometry.wordsPerLine)
    (h : c.Brought a p new) : p.cache.store.Shaped c.store.geometry.wordsPerLine := by
  rw [h.cache]
  exact h.takes.shaped hs

/-- The line of the block has a word at the offset of the address. -/
theorem Brought.offset_lt (hs : c.store.Shaped c.store.geometry.wordsPerLine)
    (h : c.Brought a p new) : p.place.offset < new.words.length := by
  obtain ⟨old, hl⟩ := h.takes.exists_old
  rw [h.takes.words old hl, hs.words _ _ _ hl, h.place]
  exact Geometry.locate_offset_lt a

/-- The cache after an operation on the line of the block: still, one line is used. -/
theorem Brought.perform (h : c.Brought a p new) (op : Operation) :
    { p.cache with
        store := p.cache.store.withLine p.place.index p.way
          (op.perform p.place.offset { new with recency := c.store.clock + 1 }) }
      = { c with
          store := c.store.used p.place.index p.way (op.perform p.place.offset new) } := by
  obtain ⟨old, hl⟩ := h.takes.exists_old
  rw [h.cache, Operation.perform_stamped, withLine_used hl]

theorem Brought.copyAt (h : c.Brought a p new) :
    p.cache.store.CopyAt p.place.index p.way ⟨(c.store.geometry.locate a).block, c.kind⟩
      { new with recency := c.store.clock + 1 } := by
  obtain ⟨hvalid, htag, hkind⟩ := holds_iff.mp h.takes.holds
  refine ⟨h.line?, hvalid, ?_, hkind⟩
  show p.cache.store.geometry.blockStart new.tag p.place.index = _
  rw [h.cache, htag, h.place]
  rfl

/-- The operation on the line is the operation on the contents. -/
theorem Brought.performed {sizes : Kind → Nat} {contents : Kind → Nat → Word}
    (h : c.Brought a p new) (hcoherent : Coherent sizes p.cache.store memories contents)
    (op : Operation) :
    Coherent sizes (p.cache.store.withLine p.place.index p.way
        (op.perform p.place.offset { new with recency := c.store.clock + 1 }))
      memories (op.store c.kind (c.store.geometry.wordIndex a) contents)
    ∧ (op.perform p.place.offset new).words[p.place.offset]?
      = some (op.store c.kind (c.store.geometry.wordIndex a) contents c.kind
          (c.store.geometry.wordIndex a)) := by
  have hc := h.copyAt
  obtain ⟨place, way, outcome, cache, port⟩ := p
  obtain ⟨hplace, -, hcache⟩ := h
  dsimp only at hplace hcache hc hcoherent ⊢
  subst hplace hcache
  constructor
  · exact (hcoherent.perform (a := a) hc op).unstamped hc.here (Operation.length_perform _ _ _)
      hcoherent.sound.shaped
  · apply Operation.perform_word
    rw [← Geometry.wordIndex_mod]
    exact hcoherent.words_eq hc (Geometry.home_wordIndex a)

end Brought

/-- An access performs its operation on the line in which its block is. -/
structure Performed (c : BlockingCache) (access : Access) (p : Present) (new : Line)
    (r : Served × BlockingCache × Port) : Prop where
  brought : c.Brought access.address p new
  cache : r.2.1 = { p.cache with
    store := p.cache.store.withLine p.place.index p.way
      (access.operation.perform p.place.offset { new with recency := c.store.clock + 1 }) }
  port : r.2.2 = p.port
  value : (access.operation.perform p.place.offset new).words[p.place.offset]? = some r.1.value
  outcome : r.1.outcome = p.outcome
  latency : r.1.latency = c.latency p.outcome

section Performed

variable {p : Present} {new : Line} {r : Served × BlockingCache × Port}

theorem Performed.takes (h : c.Performed access p new r) :
    c.store.Takes (c.store.geometry.locate access.address).index
      (c.store.geometry.locate access.address).tag c.kind (p.outcome == .hit) p.way new := by
  rw [← h.brought.place]
  exact h.brought.takes

/-- All in all, one line is used. -/
theorem Performed.used (h : c.Performed access p new r) :
    r.2.1 = { c with
      store := c.store.used (c.store.geometry.locate access.address).index p.way
        (access.operation.perform (c.store.geometry.locate access.address).offset new) } := by
  rw [h.cache, h.brought.perform, h.brought.place]

theorem Performed.value_eq (h : c.Performed access p new r) :
    (access.operation.perform (c.store.geometry.locate access.address).offset
      new).words[(c.store.geometry.locate access.address).offset]? = some r.1.value := by
  rw [← h.brought.place]
  exact h.value

end Performed

theorem serve_spec (hs : c.store.Shaped c.store.geometry.wordsPerLine) {E : Fault → Prop}
    {P : Present → Line → Prop}
    (hbring : Ends (c.bring access.address port) E fun p =>
      ∃ new, c.Brought access.address p new ∧ P p new) :
    Ends (c.serve access port) E fun r => ∃ p new, c.Performed access p new r ∧ P p new := by
  obtain ⟨a, operation⟩ := access
  cases operation with
  | read =>
    apply Ends.bind' hbring
    intro p hp
    obtain ⟨new, hnew, hP⟩ := hp
    have hlt : p.place.offset < new.words.length := hnew.offset_lt hs
    have hword := List.getElem?_eq_getElem hlt
    apply Ends.bind_ok (line_eq (hnew.shaped hs) hnew.line?)
    apply Ends.bind_ok (inBounds_eq_ok.mpr hword)
    refine Ends.pure' ⟨p, new, ⟨hnew, ?_, rfl, hword, rfl, rfl⟩, hP⟩
    simp only [Operation.perform, withLine_self hnew.line?]
  | write word =>
    apply Ends.bind' hbring
    intro p hp
    obtain ⟨new, hnew, hP⟩ := hp
    have hlt : p.place.offset < new.words.length := hnew.offset_lt hs
    apply Ends.bind_ok (line_eq (hnew.shaped hs) hnew.line?)
    apply Ends.bind_ok (Line.store_eq { new with recency := c.store.clock + 1 } hlt word)
    apply Ends.bind_ok (putLine_eq (hnew.shaped hs) hnew.line? _)
    exact Ends.pure' ⟨p, new, ⟨hnew, rfl, rfl, List.getElem?_set_self hlt, rfl, rfl⟩, hP⟩

/-- An access is one use of its block: it is a hit exactly if the block is found. -/
theorem serve_takes (hs : c.store.Shaped c.store.geometry.wordsPerLine)
    (hp : c.store.OnePath c.kind) (access : Access) (port : Port) :
    Ends (c.serve access port) (fun _ => True) fun r => ∃ way new,
      c.store.Takes (c.store.geometry.locate access.address).index
          (c.store.geometry.locate access.address).tag c.kind (r.1.outcome == .hit) way new
        ∧ r.2.1 = { c with
            store := c.store.used (c.store.geometry.locate access.address).index way new } := by
  have hbring := (bring_takes hs hp access.address port).weaken fun _ h =>
    h.imp fun _ hnew => And.intro hnew trivial
  apply (serve_spec hs hbring).weaken
  intro r hr
  obtain ⟨p, new, hperformed, -⟩ := hr
  have htakes := hperformed.takes
  rw [← hperformed.outcome] at htakes
  exact ⟨p.way, _, htakes.rewrite ((Operation.perform_holds _ _ _ _ _).trans htakes.holds)
    (Operation.length_perform _ _ _), hperformed.used⟩

/-- What an access to a coherent cache gives, and what it leaves. -/
structure Coherently (sizes : Kind → Nat) (contents : Kind → Nat → Word) (c : BlockingCache)
    (access : Access) (r : Served × BlockingCache × Port) : Prop where
  coherent : ∃ memories', r.2.2 = memories'.get c.kind
    ∧ Coherent sizes r.2.1.store memories'
      (access.operation.store c.kind (c.store.geometry.wordIndex access.address) contents)
  value : r.1.value = access.operation.store c.kind
    (c.store.geometry.wordIndex access.address) contents c.kind
    (c.store.geometry.wordIndex access.address)
  outcome : r.1.outcome = .hit
    ↔ c.store.Resident ⟨(c.store.geometry.locate access.address).block, c.kind⟩
  latency : r.1.latency = c.latency r.1.outcome
  used : ∃ way new, c.store.Takes (c.store.geometry.locate access.address).index
      (c.store.geometry.locate access.address).tag c.kind (r.1.outcome == .hit) way new
    ∧ r.2.1 = { c with
        store := c.store.used (c.store.geometry.locate access.address).index way new }

theorem serve_coherent {sizes : Kind → Nat} {contents : Kind → Nat → Word}
    (h : Coherent sizes c.store memories contents) (hp : c.store.OnePath c.kind)
    (hlt : (c.store.geometry.locate access.address).block < sizes c.kind) :
    Ends (c.serve access (memories.get c.kind)) c.store.Exhausted
      (c.Coherently sizes contents access) := by
  have hs := h.sound.shaped
  have hbring := (bring_coherent h hp hlt).also (bring_takes hs hp access.address _)
  have hserve := serve_spec hs (hbring.weaken fun _ hq =>
    hq.2.imp fun _ hnew => And.intro hnew hq.1)
  apply (hserve.also (serve_takes hs hp access _)).weaken
  intro r hr
  obtain ⟨⟨p, new, hperformed, ⟨memories', hport, hcoherent⟩, hhit⟩, hused⟩ := hr
  obtain ⟨hcontents, hword⟩ := hperformed.brought.performed hcoherent access.operation
  refine ⟨⟨memories', hperformed.port.trans hport, ?_⟩, ?_, ?_, ?_, hused⟩
  · rw [hperformed.cache]
    exact hcontents
  · rw [hperformed.value] at hword
    exact Option.some.inj hword
  · rw [hperformed.outcome]
    exact hhit
  · rw [hperformed.latency, hperformed.outcome]

end BlockingCache

end MemoryHierarchy
