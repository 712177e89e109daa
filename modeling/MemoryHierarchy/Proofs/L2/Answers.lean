import MemoryHierarchy.Proofs.Coherence

/-!
What the L2 answers.

A probe of a resident block performs its operation on the line of the block, any other probe
only asks (`probe_spec`). An arrival makes its block resident and changes no contents
(`fill_spec`). The only fault of either is a clock that has no next value. Looking at a word
without use gives the contents of its position if its block is resident (`readWord?_eq`).
-/

namespace MemoryHierarchy

open LineStore

namespace Operation

/-- The line of a resident block after the operation. -/
def perform (op : Operation) (offset : Nat) (line : Line) : Line :=
  match op with
  | .read => line
  | .write word => { line with words := line.words.set offset word, dirty := true }

/-- The contents after the operation on the word at position `i`. -/
def store (op : Operation) (kind : Kind) (i : Nat) (contents : Kind → Nat → Word) :
    Kind → Nat → Word :=
  match op with
  | .read => contents
  | .write word => fun k j => if k = kind ∧ j = i then word else contents k j

theorem perform_holds (op : Operation) (offset : Nat) (line : Line) (tag : Nat) (kind : Kind) :
    (op.perform offset line).holds tag kind = line.holds tag kind := by
  cases op <;> rfl

theorem length_perform (op : Operation) (offset : Nat) (line : Line) :
    (op.perform offset line).words.length = line.words.length := by
  cases op <;> simp [perform]

/-- An operation has nothing to do with the stamp of its line. -/
theorem perform_stamped (op : Operation) (offset : Nat) (line : Line) (stamp : Nat) :
    op.perform offset { line with recency := stamp }
      = { op.perform offset line with recency := stamp } := by
  cases op <;> rfl

/-- An operation leaves the word that it leaves in the contents. -/
theorem perform_word {op : Operation} {offset i : Nat} {line : Line} {kind : Kind}
    {contents : Kind → Nat → Word} (h : line.words[offset]? = some (contents kind i)) :
    (op.perform offset line).words[offset]? = some (op.store kind i contents kind i) := by
  cases op with
  | read => exact h
  | write word =>
    have hlt : offset < line.words.length := (List.getElem?_eq_some_iff.mp h).1
    simp [perform, store, hlt]

/-- A write says what the word at one position is. -/
theorem store_write (word : Word) (kind : Kind) (i : Nat) (contents : Kind → Nat → Word) :
    (write word).store kind i contents
      = fun k j => (if k = kind ∧ j = i then some word else none).getD (contents k j) := by
  funext k j
  simp only [store]
  split <;> rfl

end Operation

theorem Line.store_eq (line : Line) {offset : Nat} (h : offset < line.words.length) (word : Word) :
    line.store offset word
      = .ok { line with words := line.words.set offset word, dirty := true } := by
  rw [Line.store, Line.word, List.getElem?_eq_getElem h]
  rfl

variable {size : Kind → Nat} {s : LineStore} {memories : PerKind Port}
  {contents : Kind → Nat → Word} {way : Nat} {line : Line} {kind : Kind}

/-- An operation on a line is the same operation on the contents. -/
theorem Coherent.perform (h : Coherent size s memories contents) {a : Nat}
    (hc : s.CopyAt (s.geometry.locate a).index way ⟨(s.geometry.locate a).block, kind⟩ line)
    (op : Operation) :
    Coherent size
      (s.used (s.geometry.locate a).index way (op.perform (s.geometry.locate a).offset line))
      memories (op.store kind (s.geometry.wordIndex a) contents) := by
  cases op with
  | read => exact h.touch hc
  | write word =>
    rw [← Geometry.wordIndex_mod]
    exact h.write hc (Geometry.home_wordIndex a) word

namespace L2

variable {c : L2}

/-! ## Probes -/

/-- The answer to a probe whose block is in way `way`, in line `line`. -/
def served (c : L2) (p : Probe) (way : Nat) (line : Line) (ic : Interconnect) : Probed where
  response := .hit
  cache := { c with
    store := c.store.used (c.store.geometry.locate p.address).index way
      (p.operation.perform (c.store.geometry.locate p.address).offset line) }
  interconnect :=
    match p.operation with
    | .read => ic.sendOn (c.blockOf p.address p.kind) .l2ToL1
    | .write _ => ic

/-- A probe that found its block is answered, once the line could be stamped. -/
theorem probeHit_eq (hs : c.store.Shaped c.store.geometry.wordsPerLine) (p : Probe)
    (hl : c.store.line? (c.store.geometry.locate p.address).index way = some line)
    (htouch : c.store.touch (c.store.geometry.locate p.address).index way
      = .ok (c.store.used (c.store.geometry.locate p.address).index way line))
    (ic : Interconnect) : c.probeHit p way ic = .ok (c.served p way line ic) := by
  obtain ⟨address, kind, operation⟩ := p
  rw [probeHit]
  refine bind_eq_ok.mpr ⟨_, htouch, ?_⟩
  cases operation with
  | read => rfl
  | write word =>
    have hlen : line.words.length = c.store.geometry.wordsPerLine := hs.words _ _ _ hl
    have hoffset : (c.store.geometry.locate address).offset < line.words.length := by
      rw [hlen]
      exact Geometry.locate_offset_lt address
    have hshaped := hs.used hl hlen
    have hl' := line?_used hl line (c.store.geometry.locate address).index way
    rw [if_pos ⟨rfl, rfl⟩] at hl'
    -- The word goes into the line that was just stamped.
    refine bind_eq_ok.mpr ⟨_, line_eq hshaped hl', ?_⟩
    refine bind_eq_ok.mpr
      ⟨_, Line.store_eq { line with recency := c.store.clock + 1 } hoffset word, ?_⟩
    refine bind_eq_ok.mpr ⟨_, putLine_eq hshaped hl' _, congrArg Except.ok ?_⟩
    rw [served]
    congr 2
    exact withLine_used hl line
      ((Operation.write word).perform (c.store.geometry.locate address).offset line)

theorem probeMiss_store (c : L2) (p : Probe) (ic : Interconnect) :
    (c.probeMiss p ic).cache.store = c.store := by
  rw [probeMiss]
  split
  · rfl
  · split <;> rfl

theorem probeMiss_response (c : L2) (p : Probe) (ic : Interconnect) :
    ∃ disposition, (c.probeMiss p ic).response = .miss disposition := by
  rw [probeMiss]
  split
  · exact ⟨_, rfl⟩
  · split <;> exact ⟨_, rfl⟩

/-- A probe that finds its block performs its operation, unless the clock has no next value. -/
theorem probe_found (hs : c.store.Shaped c.store.geometry.wordsPerLine) (p : Probe)
    (hfind : c.store.find (c.store.geometry.locate p.address).index
      (c.store.geometry.locate p.address).tag p.kind = .ok (some way))
    (hl : c.store.line? (c.store.geometry.locate p.address).index way = some line)
    (ic : Interconnect) :
    Ends (c.probe p ic) c.store.Exhausted (· = c.served p way line ic) := by
  rw [probe]
  apply Ends.bind_ok hfind
  have htouch := (touch_spec hs hl).and_eq
  cases hstore : c.store.touch (c.store.geometry.locate p.address).index way with
  | ok store =>
    obtain ⟨rfl, heq⟩ := htouch.of_ok hstore
    exact Ends.ok (probeHit_eq hs p hl heq ic) rfl
  | error f =>
    refine Ends.error (e := f) ?_ (htouch.of_error hstore)
    show c.probeHit p way ic = .error f
    rw [probeHit, hstore]
    rfl

/-- A probe that does not find its block only asks. -/
theorem probe_missing {p : Probe} (hfind : c.store.find (c.store.geometry.locate p.address).index
    (c.store.geometry.locate p.address).tag p.kind = .ok none) (ic : Interconnect) :
    c.probe p ic = .ok (c.probeMiss p ic) := by
  rw [probe, hfind]
  rfl

/-- A probe performs its operation if its block is resident. Otherwise it only asks. -/
theorem probe_spec (hs : c.store.Sound) (p : Probe) (ic : Interconnect) :
    Ends (c.probe p ic) c.store.Exhausted fun r =>
      (∃ way line, c.store.CopyAt (c.store.geometry.locate p.address).index way
          (c.blockOf p.address p.kind) line ∧ r = c.served p way line ic)
        ∨ ¬c.store.Resident (c.blockOf p.address p.kind) ∧ r = c.probeMiss p ic := by
  rcases find_copy hs p.address p.kind with ⟨way, line, hfind, hc⟩ | ⟨hfind, hno⟩
  · apply (probe_found hs.shaped p hfind hc.here ic).weaken
    exact fun r hr => .inl ⟨way, line, hc, hr⟩
  · exact Ends.ok (probe_missing hfind ic) (.inr ⟨hno, rfl⟩)

/-- Whether a probe hits does not depend on its operation. -/
theorem probe_hit_of_hit (hs : c.store.Sound) {a : Nat} {op : Operation} (op' : Operation)
    {ic : Interconnect} {r : Probed} (h : c.probe ⟨a, kind, op⟩ ic = .ok r)
    (hhit : r.response = .hit) : ∃ r', c.probe ⟨a, kind, op'⟩ ic = .ok r' ∧ r'.response = .hit := by
  rcases find_copy hs a kind with ⟨way, line, hfind, hc⟩ | ⟨hfind, hno⟩
  · rw [probe, hfind] at h
    obtain ⟨store, hstore, -⟩ := bind_eq_ok.mp (show c.probeHit ⟨a, kind, op⟩ way ic = .ok r from h)
    obtain rfl := (touch_spec hs.shaped hc.here).of_ok hstore
    refine ⟨c.served ⟨a, kind, op'⟩ way line ic, ?_, rfl⟩
    rw [probe, hfind]
    exact probeHit_eq hs.shaped ⟨a, kind, op'⟩ hc.here hstore ic
  · rw [probe, hfind] at h
    obtain rfl := Except.ok.inj h
    obtain ⟨disposition, hmiss⟩ := probeMiss_response c ⟨a, kind, op⟩ ic
    rw [hmiss] at hhit
    cases hhit

/-- Probes neither bring blocks nor drop them. -/
theorem served_resident {p : Probe}
    (hc : c.store.CopyAt (c.store.geometry.locate p.address).index way
      (c.blockOf p.address p.kind) line) (ic : Interconnect) (b : BlockRef) :
    (c.served p way line ic).cache.store.Resident b ↔ c.store.Resident b := by
  apply resident_rewritten hc
  · cases p.operation <;> rfl
  · cases p.operation <;> rfl
  · cases p.operation <;> exact hc.valid

/-! ## Arrivals -/

/-- The name under which the L2 waits for a block: the address of its first byte. -/
def waiting (c : L2) (block : BlockRef) : BlockRef := c.blockOf block.address block.kind

/-- What an arrival does. -/
structure Arrival (size : Kind → Nat) (contents : Kind → Nat → Word) (c : L2) (block : BlockRef)
    (ic : Interconnect) (r : Filled) : Prop where
  coherent : Coherent size r.cache.store r.memories contents
  geometry : r.cache.store.geometry = c.store.geometry
  clock : r.cache.store.clock = c.store.clock + 1
  resident : r.cache.store.Resident (c.waiting block)
  only : ∀ b, r.cache.store.Resident b → b = c.waiting block ∨ c.store.Resident b
  misses : r.cache.misses = c.misses.erase (c.waiting block)
  notified : r.notified = !(c.misses.get? (c.waiting block)).any (·.cancelled)
  interconnect : r.interconnect = if r.notified then ic.sendOn block .l2ToL1 else ic

/-- An arrival makes its block resident, whether it was before or not, and changes no contents. -/
theorem fill_spec (h : Coherent size c.store memories contents) (block : BlockRef)
    (hlt : (c.waiting block).address < size block.kind) (ic : Interconnect) :
    Ends (c.fill block ic memories) c.store.Exhausted (c.Arrival size contents block ic) := by
  rw [fill]
  -- A block that is here already is only used again; any other one replaces a victim.
  rcases find_copy h.sound block.address block.kind with ⟨way, line, hfind, hc⟩ | ⟨hfind, hno⟩
  · apply Ends.bind_ok hfind
    apply Ends.bind' (touch_spec h.sound.shaped hc.here)
    intro store hstore
    subst hstore
    have hresident : ∀ b, (c.store.used (c.store.geometry.locate block.address).index way
        line).Resident b ↔ c.store.Resident b := fun b => resident_rewritten hc rfl rfl hc.valid
    exact Ends.pure' ⟨h.touch hc, rfl, rfl, (hresident _).mpr hc.resident,
      fun b hb => .inr ((hresident b).mp hb), rfl, rfl, rfl⟩
  · apply Ends.bind_ok hfind
    apply Ends.bind' (h.replace block.address block.kind hno hlt)
    intro r hr
    obtain ⟨hcoh, hgeometry, hclock, hres, honly⟩ := hr
    exact Ends.pure' ⟨hcoh, hgeometry, hclock, hres, honly, rfl, rfl, rfl⟩

/-! ## Looking without use -/

open Classical in
/-- The word at an address is the one that the contents have, if its block is resident. -/
theorem readWord?_eq (h : Coherent size c.store memories contents) (a : Nat) (kind : Kind) :
    c.readWord? a kind
      = .ok (if c.store.Resident (c.blockOf a kind) then
          some (contents kind (c.store.geometry.wordIndex a)) else none) := by
  rw [readWord?]
  rcases find_copy h.sound a kind with ⟨way, line, hfind, hc⟩ | ⟨hfind, hno⟩
  · have hword : line.word (c.store.geometry.locate a).offset
        = .ok (contents kind (c.store.geometry.wordIndex a)) := by
      rw [Line.word, ← Geometry.wordIndex_mod, h.words_eq hc (Geometry.home_wordIndex a), inBounds]
    rw [if_pos (show c.store.Resident (c.blockOf a kind) from hc.resident), hfind]
    show (do return some (← (← c.store.line _ way).word _)) = _
    rw [line_eq h.sound.shaped hc.here]
    show (do return some (← line.word _)) = _
    rw [hword]
    rfl
  · rw [if_neg (show ¬c.store.Resident (c.blockOf a kind) from hno), hfind]
    rfl

end L2

end MemoryHierarchy
