import MemoryHierarchy.Proofs.Blocking.Contents
import MemoryHierarchy.Proofs.L2.Stores
import MemoryHierarchy.Proofs.StampOrder

/-!
An L2 that is waited for is a blocking cache.

`settle` sees a probe through: what misses arrives at once, and a write is then probed again. Such
an L2 counts its uses differently from a blocking cache, because a write that misses is two uses
here and one there, but the order of the last uses is the same. So the two stay alike: they
find the same blocks, give up the same lines for them (`replace_alike`), and move the same words to
and from memory (`Settles`), access by access (`synchronous`).
-/

namespace MemoryHierarchy

open LineStore

/-! ## Lines that hold the same -/

section Line

variable {a b : Line}

theorem Operation.held?_perform (op : Operation) (offset : Nat) (h : a.held? = b.held?)
    (hvalid : a.valid = true) : (op.perform offset a).held? = (op.perform offset b).held? := by
  rw [Line.eq_of_held? h hvalid, perform_stamped]
  rfl

/-- Whether a line is written back, and how, is a matter of what it holds. -/
theorem Port.writeBack_congr (h : a.held? = b.held?) (memories : PerKind Port) (g : Geometry)
    (index : Nat) {wrote? : Option BlockRef} {port : Port}
    (hwrite : (memories.get a.kind).writeBack g index a = .ok (wrote?, port)) :
    ∃ port', (memories.get b.kind).writeBack g index b = .ok (wrote?, port')
      ∧ memories.set b.kind port' = memories.set a.kind port := by
  by_cases hvalid : a.valid = true
  · rw [Line.eq_of_held? h hvalid] at hwrite ⊢
    exact ⟨port, hwrite, rfl⟩
  · -- a line without a block leaves its memory alone, whichever that is
    have hvalid' : b.valid ≠ true := Line.valid_eq_of_held? h ▸ hvalid
    have hclean : ∀ {line : Line}, line.valid ≠ true → line.needsWriteBack = false := by
      intro line hline
      rw [Line.needsWriteBack, Bool.eq_false_iff.mpr hline, Bool.false_and]
    rw [Port.writeBack_clean (hclean hvalid)] at hwrite
    obtain ⟨rfl, rfl⟩ := Prod.mk.inj (Except.ok.inj hwrite)
    refine ⟨memories.get b.kind, Port.writeBack_clean (hclean hvalid') index, ?_⟩
    rw [PerKind.set_get_self, PerKind.set_get_self]

end Line

namespace L2

variable {s t : LineStore} {kind : Kind} {memories : PerKind Port}

/-! ## Replacing a block -/

/-- In way `way` of set `index` the store now has, just used, what `new` holds. -/
structure Replaces (t : LineStore) (index way : Nat) (new : Line) (t' : LineStore) : Prop where
  rewrites : ∃ new', new.held? = new'.held? ∧ t.Rewrites index way new' t'
  clock : t'.clock = t.clock + 1

/-- A block that takes a line of one store takes the same line of a store alike, with the same
words, and leaves the same memories. -/
theorem replace_alike (h : Alike s t) (hp : s.OnePath kind) {place : Location}
    (hi : place.index < s.geometry.sets)
    (hno : ∀ v line, s.line? place.index v = some line → line.holds place.tag kind = false) :
    Ends (replace s place kind memories) (fun _ => True) fun r => ∃ way new,
      s.Takes place.index place.tag kind false way new
        ∧ r.2.1 = s.used place.index way new
        ∧ r.2.2 = memories.set kind (r.2.2.get kind)
        ∧ Ends (replace t place kind memories) t.Exhausted fun r' =>
            Replaces t place.index way new r'.2.1 ∧ r'.2.2 = r.2.2 := by
  have hs := h.left.shaped
  have hs' := h.right.shaped
  obtain ⟨way, old, hvictim, hl⟩ := victim_spec hs hi
  obtain ⟨old', hl', hheld⟩ := h.line? hl
  have hlength : old.words.length = s.geometry.wordsPerLine := hs.words _ _ _ hl
  have hlength' : old'.words.length = t.geometry.wordsPerLine := hs'.words _ _ _ hl'
  rw [replace]
  apply Ends.bind_ok hvictim
  apply Ends.bind_ok (line_eq hs hl)
  apply Ends.bind' Ends.any.and_eq
  intro written hwritten
  obtain ⟨wrote?, port⟩ := written
  obtain ⟨port', hwrite, hmemories⟩ := Port.writeBack_congr hheld memories _ _ hwritten.2
  apply Ends.bind' ((install_spec hs hl place.tag kind).faults fun _ _ => trivial)
  intro installed hinstalled
  subst hinstalled
  apply Ends.bind' (Port.length_fetch _ _ _).and_eq
  intro fetched hfetched
  obtain ⟨words, port₂⟩ := fetched
  obtain ⟨hwords, hfetch⟩ := hfetched
  apply Ends.bind_ok (putWords_used hs hl (old.claim place.tag kind) hlength words)
  refine Ends.pure' ⟨way, { old.claim place.tag kind with words }, ?_, rfl, ?_, ?_⟩
  · exact Takes.of_victim hl hvictim hno (Line.holds_claim _ _ _ _) (hwords.trans hlength.symm)
  · -- the line given up was on the path of the new block
    rw [hp _ _ _ hl, PerKind.set_set, PerKind.get_set_self]
  · rw [replace]
    apply Ends.bind_ok ((h.victim_eq hi).trans hvictim)
    apply Ends.bind_ok (line_eq hs' hl')
    rw [h.geometry]
    apply Ends.bind_ok hwrite
    apply Ends.bind' (install_spec hs' hl' place.tag kind)
    intro installed hinstalled
    subst hinstalled
    rw [hmemories]
    apply Ends.bind_ok hfetch
    apply Ends.bind_ok (putWords_used hs' hl' (old'.claim place.tag kind) hlength' words)
    refine Ends.pure' ⟨⟨⟨{ old'.claim place.tag kind with words }, rfl, ?_⟩, rfl⟩, rfl⟩
    exact rewrites_used hs' hl' (by rw [h.geometry]; exact hwords)

/-- A block that a blocking cache has brought into line `new`, seen from a store alike. -/
inductive Beside (t : LineStore) (place : Location) (kind : Kind) (memories : PerKind Port)
    (q : BlockingCache.Present) (new : Line) : Prop
  /-- The block was in both, and no word has moved. -/
  | found (new' : Line) (held : new.held? = new'.held?) (outcome : q.outcome = .hit)
      (port : q.port = memories.get kind)
      (find : t.find place.index place.tag kind = .ok (some q.way))
      (line : t.line? place.index q.way = some new')
  /-- The block was in neither, and takes the same line in both. -/
  | replaced (outcome : q.outcome = .miss) (find : t.find place.index place.tag kind = .ok none)
      (replace : Ends (replace t place kind memories) t.Exhausted fun r =>
        Replaces t place.index q.way new r.2.1 ∧ r.2.2 = memories.set kind q.port)

theorem bring_beside {c : BlockingCache} (h : Alike c.store t) (hp : c.store.OnePath c.kind)
    (a : Nat) : Ends (c.bring a (memories.get c.kind)) (fun _ => True) fun q => ∃ new,
      c.Brought a q new ∧ Beside t (c.store.geometry.locate a) c.kind memories q new := by
  have hs := h.left.shaped
  have hi : (c.store.geometry.locate a).index < c.store.geometry.sets := Geometry.locate_index_lt a
  have hfind' := h.find_eq hi (c.store.geometry.locate a).tag c.kind
  rcases find_spec hs hi (c.store.geometry.locate a).tag c.kind with
    ⟨way, line, hfind, hl, hholds⟩ | ⟨hfind, hno⟩
  · obtain ⟨line', hl', hheld⟩ := h.line? hl
    rw [BlockingCache.bring]
    apply Ends.bind_ok hfind
    apply Ends.bind' ((touch_spec hs hl).faults fun _ _ => trivial)
    intro store hstore
    subst hstore
    exact Ends.pure' ⟨line, ⟨rfl, Takes.of_holds hl hholds hholds rfl, rfl⟩,
      .found line' hheld rfl rfl (hfind'.trans hfind) hl'⟩
  · obtain ⟨way, old, hvictim, hl⟩ := victim_spec hs hi
    rw [BlockingCache.bring_miss hs hp a hfind hvictim]
    apply (replace_alike h hp hi hno).map'
    intro r hr
    obtain ⟨way', new, htakes, hstore, hmemories, hreplace⟩ := hr
    obtain rfl := Except.ok.inj ((htakes.of_not_found rfl).1.symm.trans hvictim)
    refine ⟨new, ⟨rfl, htakes, by rw [hstore]⟩, .replaced rfl (hfind'.trans hfind) ?_⟩
    rw [← hmemories]
    exact hreplace

/-! ## A line that was rewritten -/

section Rewritten

variable {c : L2} {way : Nat} {last : Line}

/-- A probe of its block rewrites it once more. -/
theorem probe_rewritten {p : Probe}
    (h : s.Rewrites (s.geometry.locate p.address).index way last c.store)
    (hfind : c.store.find (s.geometry.locate p.address).index (s.geometry.locate p.address).tag
      p.kind = .ok (some way))
    (hlength : last.words.length = s.geometry.wordsPerLine) (ic : Interconnect) :
    Ends (c.probe p ic) c.store.Exhausted fun r => r.cache.store.clock = c.store.clock + 1
      ∧ s.Rewrites (s.geometry.locate p.address).index way
        (p.operation.perform (s.geometry.locate p.address).offset
          { last with recency := c.store.clock }) r.cache.store := by
  have hs : c.store.Shaped c.store.geometry.wordsPerLine := h.geometry ▸ h.shaped
  have hl := h.line?_self
  have hused := h.used ((Operation.length_perform p.operation
    (s.geometry.locate p.address).offset { last with recency := c.store.clock }).trans hlength)
  rw [← h.geometry] at hfind hl hused ⊢
  apply (probe_found hs p hfind hl ic).weaken
  intro r hr
  subst hr
  exact ⟨rfl, hused⟩

/-- Its words are seen without use. -/
theorem readWord?_rewritten {a : Nat} {word : Word}
    (h : s.Rewrites (s.geometry.locate a).index way last c.store)
    (hfind : c.store.find (s.geometry.locate a).index (s.geometry.locate a).tag kind
      = .ok (some way))
    (hword : last.words[(s.geometry.locate a).offset]? = some word) :
    c.readWord? a kind = .ok (some word) := by
  have hline := line_eq h.shaped h.line?_self
  have hseen : Line.word { last with recency := c.store.clock } (s.geometry.locate a).offset
      = .ok word :=
    inBounds_eq_ok.mpr hword
  rw [readWord?, h.geometry]
  refine bind_eq_ok.mpr ⟨some way, hfind, ?_⟩
  refine bind_eq_ok.mpr ⟨_, hline, ?_⟩
  exact bind_eq_ok.mpr ⟨word, hseen, rfl⟩

end Rewritten

/-! ## Seeing a probe through -/

namespace Machine

/-- Probes, and sees the probe through: a block that is not there arrives, and a write is then
probed again. Tells what the first probe found. -/
def settle (m : Machine) (p : Probe) : Except Fault (Outcome × Machine) := do
  let first ← m.cache.probe p m.interconnect
  match first.response with
  | .hit => return (.hit, { m with cache := first.cache, interconnect := first.interconnect })
  | .miss _ =>
    let filled ← first.cache.fill (first.cache.blockOf p.address p.kind) first.interconnect
      m.memories
    match p.operation with
    | .read => return (.miss, ⟨filled.cache, filled.interconnect, filled.memories⟩)
    | .write _ =>
      let second ← filled.cache.probe p filled.interconnect
      return (.miss, ⟨second.cache, second.interconnect, filled.memories⟩)

end Machine

/-- A block that is not there arrives as one that replaces another. -/
theorem fill_missing {c : L2} {a : Nat} {E : Fault → Prop} {P : LineStore → PerKind Port → Prop}
    (hfind : c.store.find (c.store.geometry.locate a).index (c.store.geometry.locate a).tag kind
      = .ok none)
    (hreplace : Ends (replace c.store (c.store.geometry.locate a) kind memories) E
      fun r => P r.2.1 r.2.2) (ic : Interconnect) :
    Ends (c.fill (c.blockOf a kind) ic memories) E fun r => P r.cache.store r.memories := by
  rw [fill, blockOf]
  simp only [Geometry.locate_locate (g := c.store.geometry) a]
  apply Ends.bind_ok hfind
  apply Ends.bind' (x := replace c.store (c.store.geometry.locate a) kind memories) hreplace
  intro r hr
  exact Ends.pure' hr

namespace Machine

variable {m : Machine} {p : Probe} {q : BlockingCache.Present} {new : Line}

/-- The L2 has done what the blocking cache has: its line of the block is rewritten to hold what
the line there holds after the operation, and its memories are those after the block was brought. -/
structure Settles (m : Machine) (p : Probe) (q : BlockingCache.Present) (new : Line)
    (r : Outcome × Machine) : Prop where
  outcome : r.1 = q.outcome
  memories : r.2.memories = m.memories.set p.kind q.port
  clock : r.2.cache.store.clock ≤ m.cache.store.clock + 2
  rewrites : ∃ last,
    (p.operation.perform (m.cache.store.geometry.locate p.address).offset new).held? = last.held?
      ∧ m.cache.store.Rewrites (m.cache.store.geometry.locate p.address).index q.way last
        r.2.cache.store

theorem settle_spec (hs : m.cache.store.Shaped m.cache.store.geometry.wordsPerLine)
    (hnew : new.holds (m.cache.store.geometry.locate p.address).tag p.kind = true)
    (hlength : new.words.length = m.cache.store.geometry.wordsPerLine)
    (honly : ∀ v line, v ≠ q.way →
      m.cache.store.line? (m.cache.store.geometry.locate p.address).index v = some line →
      line.holds (m.cache.store.geometry.locate p.address).tag p.kind = false)
    (h : Beside m.cache.store (m.cache.store.geometry.locate p.address) p.kind m.memories q new) :
    Ends (m.settle p) (fun f => f = .overflow ∧ UInt64.size ≤ m.cache.store.clock + 2)
      (m.Settles p q new) := by
  have hvalid : new.valid = true := (holds_iff.mp hnew).1
  have hi : (m.cache.store.geometry.locate p.address).index < m.cache.store.geometry.sets :=
    Geometry.locate_index_lt p.address
  rw [settle]
  rcases h with ⟨new', hheld, houtcome, hport, hfind, hl⟩ | ⟨houtcome, hfind, hreplace⟩
  · apply Ends.bind' ((probe_found hs p hfind hl m.interconnect).faults fun f hf =>
      ⟨hf.1, Nat.le_succ_of_le hf.2⟩)
    intro first hfirst
    subst hfirst
    refine Ends.pure' ⟨houtcome.symm, ?_, Nat.le_succ _, _,
      Operation.held?_perform p.operation _ hheld hvalid, rewrites_used hs hl ?_⟩
    · rw [hport, PerKind.set_get_self]
    · rw [Operation.length_perform, ← Line.words_eq_of_held? hheld hvalid, hlength]
  · have hstore := probeMiss_store m.cache p m.interconnect
    obtain ⟨disposition, hresponse⟩ := probeMiss_response m.cache p m.interconnect
    apply Ends.bind_ok (probe_missing hfind m.interconnect)
    have hfill := fill_missing (c := (m.cache.probeMiss p m.interconnect).cache)
      (a := p.address)
      (P := fun store memories =>
        Replaces m.cache.store (m.cache.store.geometry.locate p.address).index q.way new store
          ∧ memories = m.memories.set p.kind q.port)
      (by rw [hstore]; exact hfind) (by rw [hstore]; exact hreplace)
      (m.cache.probeMiss p m.interconnect).interconnect
    rw [hresponse]
    apply Ends.bind' (hfill.faults fun f hf => ⟨hf.1, Nat.le_succ_of_le hf.2⟩)
    intro filled hfilled
    obtain ⟨⟨⟨new', hheld, hrewrites⟩, hclock⟩, hmemories⟩ := hfilled
    cases hop : p.operation with
    | read =>
      refine Ends.pure' ⟨houtcome.symm, hmemories, Nat.le_succ_of_le (Nat.le_of_eq hclock), new',
        ?_, hrewrites⟩
      rw [hop]
      exact hheld
    | write word =>
      have hfind' := hrewrites.find_eq hi ((Line.holds_eq_of_held? hheld _ _).symm.trans hnew) honly
      have hprobe := probe_rewritten hrewrites hfind'
        ((congrArg List.length (Line.words_eq_of_held? hheld hvalid)).symm.trans hlength)
        filled.interconnect
      have htwice : filled.cache.store.clock + 1 = m.cache.store.clock + 2 :=
        congrArg (· + 1) hclock
      apply Ends.bind' (hprobe.faults fun f hf => ⟨hf.1, htwice ▸ hf.2⟩)
      intro second hsecond
      obtain ⟨hclock', hrewrites'⟩ := hsecond
      refine Ends.pure' ⟨houtcome.symm, hmemories, Nat.le_of_eq (hclock'.trans htwice), _,
        Operation.held?_perform p.operation _ ?_ hvalid, hrewrites'⟩
      -- the stamp is no part of what a line holds
      exact hheld

end Machine

/-! ## Accesses -/

namespace Machine

/-- What comes of an access that is waited for. -/
structure Completed where
  outcome : Outcome
  /-- The word that is then at the address. -/
  word? : Option Word
  deriving Repr, DecidableEq

/-- Sees an access on path `kind` through, then looks at its address without use. -/
def complete (kind : Kind) (m : Machine) (access : BlockingCache.Access) :
    Except Fault (Completed × Machine) := do
  let (outcome, m) ← m.settle ⟨access.address, kind, access.operation⟩
  let word? ← m.cache.readWord? access.address kind
  return (⟨outcome, word?⟩, m)

variable {m : Machine} {c : BlockingCache} {access : BlockingCache.Access}

/-- What the L2 does as a blocking cache has done it: it answers the same, and what it has and
what its memories have is the same afterwards. -/
structure Matches (m : Machine) (kind : Kind)
    (r : BlockingCache.Served × BlockingCache × Port) (r' : Completed × Machine) : Prop where
  outcome : r'.1.outcome = r.1.outcome
  word? : r'.1.word? = some r.1.value
  alike : Alike r.2.1.store r'.2.cache.store
  memories : r'.2.memories = m.memories.set kind r.2.2
  clock : r'.2.cache.store.clock ≤ m.cache.store.clock + 2

theorem complete_spec (h : Alike c.store m.cache.store) (hsound : c.store.Sound)
    (hp : c.store.OnePath c.kind) {r : BlockingCache.Served × BlockingCache × Port}
    (hserve : c.serve access (m.memories.get c.kind) = .ok r) :
    Ends (m.complete c.kind access) (fun f => f = .overflow ∧ UInt64.size ≤ m.cache.store.clock + 2)
      (m.Matches c.kind r) := by
  have hs := hsound.shaped
  obtain ⟨q, new, hperformed, hbeside⟩ :=
    (BlockingCache.serve_spec hs (bring_beside h hp access.address)).of_ok hserve
  have htakes := hperformed.takes
  have hcache := hperformed.used
  have hvalue := hperformed.value_eq
  obtain ⟨old, hl⟩ := htakes.exists_old
  have hlength : new.words.length = c.store.geometry.wordsPerLine :=
    (htakes.words old hl).trans (hs.words _ _ _ hl)
  have hused := rewrites_used hs hl
    ((Operation.length_perform access.operation (c.store.geometry.locate access.address).offset
      new).trans hlength)
  have hholds := htakes.holds
  have honly : ∀ v line, v ≠ q.way →
      m.cache.store.line? (c.store.geometry.locate access.address).index v = some line →
      line.holds (c.store.geometry.locate access.address).tag c.kind = false :=
    fun v line => h.only fun v line => htakes.holds_eq_false hsound
  -- from here on the L2 cuts the address up, which gives the same parts
  rw [← h.geometry] at hholds hlength honly hbeside hvalue hused hcache
  rw [complete]
  apply Ends.bind' (settle_spec (p := ⟨access.address, c.kind, access.operation⟩) h.right.shaped
    hholds hlength honly hbeside)
  intro settled hsettled
  obtain ⟨houtcome, hmemories, hclock, last, hheld, hrewrites⟩ := hsettled
  have hperform : (access.operation.perform
      (m.cache.store.geometry.locate access.address).offset new).holds
        (m.cache.store.geometry.locate access.address).tag c.kind = true :=
    (Operation.perform_holds _ _ _ _ _).trans hholds
  have hlast : last.holds (m.cache.store.geometry.locate access.address).tag c.kind = true :=
    (Line.holds_eq_of_held? hheld _ _).symm.trans hperform
  have hword : last.words[(m.cache.store.geometry.locate access.address).offset]?
      = some r.1.value := by
    rw [← Line.words_eq_of_held? hheld (holds_iff.mp hperform).1]
    exact hvalue
  have hfind := hrewrites.find_eq (Geometry.locate_index_lt access.address) hlast honly
  apply Ends.bind_ok (readWord?_rewritten hrewrites hfind hword)
  refine Ends.pure' ⟨?_, rfl, ?_, ?_, hclock⟩
  · rw [hperformed.outcome]
    exact houtcome
  · rw [hcache]
    exact h.rewrites hused hrewrites hheld
  · rw [hperformed.port]
    exact hmemories

/-! ## Runs -/

/-- What holds after the accesses in `past`, with `rest` still to come. -/
structure Together (g : Geometry) (memories : PerKind Port) (kind : Kind) (missPenalty total : Nat)
    (rest : List BlockingCache.Access)
    (past : List (BlockingCache.Access × BlockingCache.Answer × Completed))
    (s : BlockingCache.Machine × Machine) : Prop where
  kept : BlockingCache.Kept g (memories.get kind).memory kind missPenalty total rest
    (past.map fun e => (e.1, e.2.1)) s.1
  alike : Alike s.1.cache.store s.2.cache.store
  memories : s.2.memories = memories.set kind s.1.port
  clock : s.2.cache.store.clock ≤ 2 * past.length
  agree : ∀ e ∈ past, e.2.2.outcome = e.2.1.served.outcome
    ∧ e.2.2.word? = some e.2.1.served.value

theorem Together.step {g : Geometry} {missPenalty total : Nat} {rest : List BlockingCache.Access}
    {past : List (BlockingCache.Access × BlockingCache.Answer × Completed)}
    {s : BlockingCache.Machine × Machine}
    (h : Together g memories kind missPenalty total (access :: rest) past s) :
    Ends (sideBySide BlockingCache.Machine.perform (complete kind) s access)
      (fun f => f = .overflow ∧ UInt64.size ≤ 2 * total) fun r =>
        Together g memories kind missPenalty total rest ((access, r.1) :: past) r.2 := by
  obtain ⟨hkept, halike, hmemories, hclock, hagree⟩ := h
  have hcount := hkept.count
  rw [List.length_map, List.length_cons] at hcount
  apply Ends.sideBySide (hkept.perform.faults fun f hf => ⟨hf.1, by have := hf.2; omega⟩)
  intro answer first hperform hkept'
  obtain ⟨wasHere, -, hrest⟩ := bind_eq_ok.mp hperform
  obtain ⟨served, hserve, hanswer⟩ := bind_eq_ok.mp hrest
  obtain ⟨rfl, rfl⟩ := Prod.mk.inj (Except.ok.inj hanswer)
  obtain rfl := hkept.path
  have hport : s.1.port = s.2.memories.get s.1.cache.kind := by
    rw [hmemories, PerKind.get_set_self]
  rw [hport] at hserve
  apply Ends.mono (complete_spec halike hkept.backed.sound hkept.backed.onePath hserve)
  · intro f hf
    exact ⟨hf.1, by have := hf.2; omega⟩
  · intro r hr
    refine ⟨hkept', hr.alike, ?_, ?_, ?_⟩
    · rw [hr.memories, hmemories, PerKind.set_set]
    · exact Nat.le_trans hr.clock (by rw [List.length_cons]; omega)
    · intro e he
      rcases List.mem_cons.mp he with rfl | he
      · exact ⟨hr.outcome, hr.word?⟩
      · exact hagree e he

/-- **An L2 that is waited for is a blocking cache.** A blocking cache of path `kind` and an L2,
both without any block, take the same accesses one after the other, over memories of words of the
right width, in which the blocks of the accesses lie. They go through, unless they are more than the
clock of the L2 can count, which counts two uses for a write that misses. Then

* the first probe of each access finds its block exactly if the blocking cache does, and the
  word then at the address is the one that the blocking cache answers;
* the memory behind the blocking cache, and all that has passed to and from it, is the one on
  this path of the L2; the other path's is as it was;
* the same ways of the same sets hold the same blocks, with the same words, clean or dirty. -/
theorem synchronous (g : Geometry) (kind : Kind) (missPenalty missSlots : Nat) (ic : Interconnect)
    (memories : PerKind Port) (hwidth : (memories.get kind).memory.wordBytes = g.word.bytes)
    (accesses : List BlockingCache.Access)
    (hinside : ∀ access ∈ accesses,
      (g.locate access.address).block + g.lineBytes ≤ (memories.get kind).memory.sizeBytes) :
    Ends (record (sideBySide BlockingCache.Machine.perform (complete kind))
        (⟨BlockingCache.empty g kind missPenalty, memories.get kind⟩,
          ⟨L2.empty g missSlots, ic, memories⟩) accesses)
      (fun f => f = .overflow ∧ UInt64.size ≤ 2 * accesses.length) fun (history, blocking, l2) =>
        (∀ e ∈ history, e.2.2.outcome = e.2.1.served.outcome
          ∧ e.2.2.word? = some e.2.1.served.value)
        ∧ l2.memories = memories.set kind blocking.port
        ∧ ∀ i v, (l2.cache.store.line? i v).map Line.held?
          = (blocking.cache.store.line? i v).map Line.held? := by
  have hblocks : ∀ access ∈ accesses,
      (memories.get kind).memory.HasBlock g (g.locate access.address).block := by
    intro access haccess
    exact Memory.hasBlock_of_le hwidth (Geometry.locate_block_dvd _) (Geometry.locate_block_le _)
      (hinside access haccess)
  have hrun := Ends.record (Together g memories kind missPenalty accesses.length)
    (fun access rest past s h => h.step) accesses []
    (⟨BlockingCache.empty g kind missPenalty, memories.get kind⟩,
      ⟨L2.empty g missSlots, ic, memories⟩)
    { kept := ⟨hblocks, Nat.zero_add _, rfl, rfl, rfl, rfl, BlockingCache.empty_backed g kind _,
        trivial⟩
      alike := Alike.of_empty g kind .data
      memories := (PerKind.set_get_self _ _).symm
      clock := Nat.le_refl 0
      agree := List.forall_mem_nil _ }
  apply hrun.weaken
  intro r hr
  obtain ⟨history, blocking, l2⟩ := r
  exact ⟨hr.agree, hr.memories, fun i v => (hr.alike.held i v).symm⟩

/-- One set of two ways, on the instruction path: the third block drives out the first one, in
which a word was written, and the word passes to memory. -/
theorem synchronous_write_back :
    ∃ (g : Geometry) (memories : PerKind Port)
      (r : List (BlockingCache.Access × BlockingCache.Answer × Completed)
        × BlockingCache.Machine × Machine),
      (memories.get .instruction).memory.wordBytes = g.word.bytes
        ∧ (∀ access ∈ [BlockingCache.Access.mk 0 (.write 7), ⟨1, .read⟩, ⟨2, .read⟩],
          (g.locate access.address).block + g.lineBytes
            ≤ (memories.get .instruction).memory.sizeBytes)
        ∧ record (sideBySide BlockingCache.Machine.perform (complete .instruction))
            (⟨BlockingCache.empty g .instruction 10, memories.get .instruction⟩,
              ⟨L2.empty g 1, Interconnect.empty ⟨1, 1, 1⟩, memories⟩)
            [⟨0, .write 7⟩, ⟨1, .read⟩, ⟨2, .read⟩] = .ok r
        ∧ r.1.map (·.2.2) = [⟨.miss, some 0⟩, ⟨.miss, some 0⟩, ⟨.miss, some 7⟩]
        ∧ (r.2.2.memories.get .instruction).traffic
          = [.read 0 0, .read 1 0, .write 0 7, .read 2 0]
        ∧ (∀ e ∈ r.1, e.2.2.outcome = e.2.1.served.outcome
          ∧ e.2.2.word? = some e.2.1.served.value)
        ∧ r.2.2.memories = memories.set .instruction r.2.1.port
        ∧ ∀ i v, (r.2.2.cache.store.line? i v).map Line.held?
          = (r.2.1.cache.store.line? i v).map Line.held? := by
  have hinside : ∀ access ∈ [BlockingCache.Access.mk 0 (.write 7), ⟨1, .read⟩, ⟨2, .read⟩],
      (Geometry.locate ⟨.w8, 0, 0, 1, by decide, by decide, by decide⟩ access.address).block
          + Geometry.lineBytes ⟨.w8, 0, 0, 1, by decide, by decide, by decide⟩
        ≤ ((PerKind.both (Port.ofMemory (Memory.zeroed 4 1))).get
          .instruction).memory.sizeBytes := by
    decide +kernel
  have hrun := synchronous ⟨.w8, 0, 0, 1, by decide, by decide, by decide⟩ .instruction 10 1
    (Interconnect.empty ⟨1, 1, 1⟩) (PerKind.both (Port.ofMemory (Memory.zeroed 4 1))) rfl _ hinside
  have hview : (record (sideBySide BlockingCache.Machine.perform (complete .instruction))
      (⟨BlockingCache.empty ⟨.w8, 0, 0, 1, by decide, by decide, by decide⟩ .instruction 10,
          (PerKind.both (Port.ofMemory (Memory.zeroed 4 1))).get .instruction⟩,
        ⟨L2.empty ⟨.w8, 0, 0, 1, by decide, by decide, by decide⟩ 1, Interconnect.empty ⟨1, 1, 1⟩,
          PerKind.both (Port.ofMemory (Memory.zeroed 4 1))⟩)
      [⟨0, .write 7⟩, ⟨1, .read⟩, ⟨2, .read⟩]).toOption.map
        (fun r => (r.1.map (·.2.2), (r.2.2.memories.get .instruction).traffic))
      = some ([⟨.miss, some 0⟩, ⟨.miss, some 0⟩, ⟨.miss, some 7⟩],
          [.read 0 0, .read 1 0, .write 0 7, .read 2 0]) := by
    decide +kernel
  obtain ⟨r, hr, hseen, hagree, hmemories, hheld⟩ := hrun.evaluated hview
  obtain ⟨hanswers, htraffic⟩ := Prod.mk.inj hseen
  exact ⟨_, _, r, rfl, hinside, hr, hanswers, htraffic, hagree, hmemories, hheld⟩

end Machine

end L2

end MemoryHierarchy
