import MemoryHierarchy.L2
import MemoryHierarchy.Proofs.Run

/-!
Caches and memories without their data.

`blank` puts zero for every data word and leaves all else as it is: tags, flags, stamps, the
addresses of what has passed a port. Nothing that a cache or a memory decides depends on a data
word, so every operation on blank parts with blank words is the blank of what it is on the parts
themselves, with the same faults (`L2.probe_blank`, `L2.fill_blank`). Each lemma here says this of
one operation; `bind_eq_map` puts them together along a chain.
-/

namespace MemoryHierarchy

/-! ## Chains -/

section Chains

variable {α α' β β' : Type} {view : α → α'} {view' : β → β'}

/-- If both parts of a chain commute with a view of what they return, so does the chain. -/
theorem bind_eq_map {x : Except Fault α} {x' : Except Fault α'} {f : α → Except Fault β}
    {f' : α' → Except Fault β'} (hx : x' = x.map view) (hf : ∀ a, f' (view a) = (f a).map view') :
    x' >>= f' = (x >>= f).map view' := by
  subst hx
  cases x with
  | ok a => exact hf a
  | error e => rfl

/-- A second part that does not see the view. -/
theorem bind_eq_of_map {x : Except Fault α} {x' : Except Fault α'} {f : α → Except Fault β}
    {f' : α' → Except Fault β} (hx : x' = x.map view) (hf : ∀ a, f' (view a) = f a) :
    x' >>= f' = x >>= f := by
  subst hx
  cases x with
  | ok a => exact hf a
  | error e => rfl

/-- A first part that both chains share. -/
theorem bind_eq_map_of_eq {x x' : Except Fault α} {f : α → Except Fault β}
    {f' : α → Except Fault β'} (hx : x' = x) (hf : ∀ a, f' a = (f a).map view') :
    x' >>= f' = (x >>= f).map view' := by
  subst hx
  cases x' with
  | ok a => exact hf a
  | error e => rfl

/-- A fold whose steps commute with a view of the state commutes with it. -/
theorem foldlM_eq_map {ι : Type} {step : α → ι → Except Fault α}
    {step' : α' → ι → Except Fault α'} (hstep : ∀ a i, step' (view a) i = (step a i).map view) :
    ∀ (l : List ι) (a : α), l.foldlM step' (view a) = (l.foldlM step a).map view
  | [], _ => rfl
  | i :: rest, a => by
    rw [List.foldlM_cons, List.foldlM_cons]
    exact bind_eq_map (hstep a i) fun a' => foldlM_eq_map hstep rest a'

theorem inBounds_map (o : Option α) : inBounds (o.map view) = (inBounds o).map view := by
  cases o <;> rfl

end Chains

/-! ## Lines -/

/-- A data word that says nothing. -/
def Word.blank (_ : Word) : Word := 0

namespace Line

/-- The line with blank words. -/
def blank (line : Line) : Line := { line with words := line.words.map Word.blank }

theorem word_blank (line : Line) (offset : Nat) :
    line.blank.word offset = (line.word offset).map Word.blank := by
  rw [word, word, ← inBounds_map, ← List.getElem?_map]
  rfl

theorem store_blank (line : Line) (offset : Nat) (word : Word) :
    line.blank.store offset word.blank = (line.store offset word).map blank := by
  apply bind_eq_map (line.word_blank offset)
  intro _
  show Except.ok { line.blank with
      words := (line.words.map Word.blank).set offset word.blank, dirty := true } = _
  rw [← List.map_set]
  rfl

end Line

section Sets

variable (lines : List Line)

theorem leastRecent_blank : leastRecent (lines.map Line.blank) = leastRecent lines := by
  have hrecency : (lines.map Line.blank).map (·.recency) = lines.map (·.recency) := by
    rw [List.map_map]
    rfl
  simp only [leastRecent, hrecency, List.findIdx_map]
  rfl

theorem victim_blank : victim (lines.map Line.blank) = victim lines := by
  rw [victim, victim, List.findIdx?_map, leastRecent_blank]
  rfl

theorem wayOf_blank (way : Nat) : wayOf (lines.map Line.blank) way
    = (wayOf lines way).map Line.blank := by
  rw [wayOf, wayOf, List.getElem?_map, inBounds_map]

theorem stampWay_blank (clock way : Nat) : stampWay clock (lines.map Line.blank) way
    = (stampWay clock lines way).map (Prod.map id (List.map Line.blank)) := by
  apply bind_eq_map_of_eq rfl
  intro now
  apply bind_eq_map (wayOf_blank lines way)
  intro line
  show Except.ok (now, (lines.map Line.blank).set way { line.blank with recency := now }) = _
  rw [show { line.blank with recency := now } = Line.blank { line with recency := now } from rfl,
    ← List.map_set]
  rfl

end Sets

namespace LineStore

/-- The store with blank lines. -/
def blank (s : LineStore) : LineStore := { s with sets := s.sets.map (List.map Line.blank) }

variable (s : LineStore) (index way : Nat)

theorem set_blank : s.blank.set index = (s.set index).map (List.map Line.blank) := by
  have hsets : s.blank.sets[index]? = s.sets[index]?.map (List.map Line.blank) :=
    Array.getElem?_map
  rw [set, set, hsets, inBounds_map]
  show (if (index + 1) * s.geometry.ways < UInt64.size then _ else _) = _
  split <;> rfl

theorem putSet_blank (lines : List Line) :
    s.blank.putSet index (lines.map Line.blank) = (s.putSet index lines).blank := by
  rw [putSet, putSet, blank, blank, Array.map_setIfInBounds]

theorem find_blank (tag : Nat) (kind : Kind) :
    s.blank.find index tag kind = s.find index tag kind := by
  apply bind_eq_of_map (s.set_blank index)
  intro lines
  show Except.ok ((lines.map Line.blank).findIdx? _) = _
  rw [List.findIdx?_map]
  rfl

theorem victim_blank : s.blank.victim index = s.victim index := by
  apply bind_eq_of_map (s.set_blank index)
  intro lines
  exact congrArg Except.ok (MemoryHierarchy.victim_blank lines)

theorem line_blank : s.blank.line index way = (s.line index way).map Line.blank :=
  bind_eq_map (s.set_blank index) fun lines => wayOf_blank lines way

theorem putLine_blank (line : Line) :
    s.blank.putLine index way line.blank = (s.putLine index way line).map blank := by
  apply bind_eq_map (s.set_blank index)
  intro lines
  apply bind_eq_map (wayOf_blank lines way)
  intro _
  show Except.ok (s.blank.putSet index ((lines.map Line.blank).set way line.blank)) = _
  rw [← List.map_set, putSet_blank]
  rfl

theorem touch_blank : s.blank.touch index way = (s.touch index way).map blank := by
  apply bind_eq_map (s.set_blank index)
  intro lines
  apply bind_eq_map (stampWay_blank lines s.clock way)
  intro stamped
  obtain ⟨clock, lines'⟩ := stamped
  exact congrArg (fun t : LineStore => Except.ok { t with clock }) (s.putSet_blank index lines')

theorem install_blank (tag : Nat) (kind : Kind) :
    s.blank.install index way tag kind = (s.install index way tag kind).map blank := by
  apply bind_eq_map (s.line_blank index way)
  intro line
  apply bind_eq_map (s.putLine_blank index way (line.claim tag kind))
  intro s'
  exact s'.touch_blank index way

theorem putWords_blank (words : List Word) :
    s.blank.putWords index way (words.map Word.blank) = (s.putWords index way words).map blank := by
  apply bind_eq_map (s.line_blank index way)
  intro line
  exact s.putLine_blank index way { line with words }

end LineStore

/-! ## Memories -/

namespace Memory

/-- The memory with blank words. -/
def blank (m : Memory) : Memory := { m with words := m.words.map Word.blank }

variable (m : Memory)

theorem sizeBytes_blank : m.blank.sizeBytes = m.sizeBytes := by
  rw [sizeBytes, sizeBytes, blank, Array.size_map]

theorem size_blank : m.blank.words.size = m.words.size := Array.size_map

theorem position_blank (address : Nat) :
    m.blank.position address = (m.position address).map (Fin.cast m.size_blank.symm) := by
  simp only [position, sizeBytes_blank, size_blank]
  show (if address % m.wordBytes ≠ 0 then _ else if h : address / m.wordBytes < _ then _ else _) = _
  split
  · rfl
  · split <;> rfl

theorem readWord_blank (address : Nat) :
    m.blank.readWord address = (m.readWord address).map Word.blank := by
  apply bind_eq_map (m.position_blank address)
  intro i
  have hlt : i < m.blank.words.size := m.size_blank.symm ▸ i.2
  exact congrArg Except.ok (Array.getElem_map Word.blank hlt)

theorem writeWord_blank (address : Nat) (word : Word) :
    m.blank.writeWord address word.blank = (m.writeWord address word).map blank := by
  apply bind_eq_map (m.position_blank address)
  intro i
  have hset : (m.words.set i word).map Word.blank
      = (m.words.map Word.blank).set i word.blank (m.size_blank.symm ▸ i.2) := Array.map_set
  apply congrArg Except.ok
  simp only [blank, hset]
  rfl

theorem readFrom_blank (step address : Nat) : ∀ (count i : Nat) (before : List Word),
    m.blank.readFrom step address count i (before.map Word.blank)
      = (m.readFrom step address count i before).map (List.map Word.blank)
  | 0, _, before => by
    rw [readFrom, readFrom, ← List.map_reverse]
    rfl
  | count + 1, i, before => by
    rw [readFrom, readFrom]
    apply bind_eq_map_of_eq rfl
    intro x
    apply bind_eq_map (m.readWord_blank x)
    intro word
    exact readFrom_blank step address count (i + 1) (word :: before)

theorem writeFrom_blank (step address : Nat) : ∀ (words : List Word) (m : Memory) (i : Nat),
    m.blank.writeFrom step address i (words.map Word.blank)
      = (m.writeFrom step address i words).map blank
  | [], _, _ => rfl
  | word :: rest, m, i => by
    rw [List.map_cons, writeFrom, writeFrom]
    apply bind_eq_map_of_eq rfl
    intro x
    apply bind_eq_map (m.writeWord_blank x word)
    intro m'
    exact writeFrom_blank step address rest m' (i + 1)

/-- Memories of the same shape are the same without data. -/
theorem blank_eq {m m' : Memory} (hbytes : m.wordBytes = m'.wordBytes)
    (hsize : m.words.size = m'.words.size) : m.blank = m'.blank := by
  have hwords : m.words.map Word.blank = m'.words.map Word.blank := by
    apply Array.ext
    · rw [Array.size_map, Array.size_map, hsize]
    · intro i hi hi'
      rw [Array.getElem_map, Array.getElem_map]
      rfl
  simp only [blank, hwords, hbytes]

end Memory

/-! ## Ports -/

/-- The transfer of a blank word. -/
def Transfer.blank : Transfer → Transfer
  | .read address word => .read address word.blank
  | .write address word => .write address word.blank

namespace Port

/-- The port to a blank memory, with blank words in its log. -/
def blank (p : Port) : Port := { memory := p.memory.blank, log := p.log.map Transfer.blank }

variable (p : Port)

theorem note_blank {transfer : Nat → Word → Transfer}
    (htransfer : ∀ address word, (transfer address word).blank = transfer address word.blank)
    (step : Nat) : ∀ (words : List Word) (p : Port) (address : Nat),
      p.blank.note transfer step address (words.map Word.blank)
        = (p.note transfer step address words).blank
  | [], _, _ => rfl
  | word :: rest, p, address => by
    rw [List.map_cons, note, note, ← htransfer]
    exact note_blank htransfer step rest { p with log := transfer address word :: p.log } _

theorem readWords_blank (step address count : Nat) :
    p.blank.readWords step address count
      = (p.readWords step address count).map (Prod.map (List.map Word.blank) blank) := by
  apply bind_eq_map (p.memory.readFrom_blank step address count 0 [])
  intro words
  exact congrArg (fun port => Except.ok (words.map Word.blank, port))
    (note_blank (fun _ _ => rfl) step words p address)

theorem writeWords_blank (step address : Nat) (words : List Word) :
    p.blank.writeWords step address (words.map Word.blank)
      = (p.writeWords step address words).map blank := by
  apply bind_eq_map (Memory.writeFrom_blank step address words p.memory 0)
  intro memory
  exact congrArg Except.ok (note_blank (fun _ _ => rfl) step words { p with memory } address)

theorem writeBack_blank (g : Geometry) (index : Nat) (line : Line) :
    p.blank.writeBack g index line.blank
      = (p.writeBack g index line).map (Prod.map id blank) := by
  rw [writeBack, writeBack]
  show (if line.needsWriteBack then _ else _) = _
  split
  · apply bind_eq_map (p.writeWords_blank g.word.bytes (g.blockStart line.tag index) line.words)
    exact fun _ => rfl
  · rfl

theorem fetch_blank (g : Geometry) (block : Nat) :
    p.blank.fetch g block = (p.fetch g block).map (Prod.map (List.map Word.blank) blank) :=
  p.readWords_blank g.word.bytes block g.wordsPerLine

end Port

/-- What is done to the things of both paths. -/
def PerKind.map {α β : Type} (f : α → β) (p : PerKind α) : PerKind β :=
  { instruction := f p.instruction, data := f p.data }

theorem PerKind.get_map {α β : Type} (f : α → β) (p : PerKind α) (kind : Kind) :
    (p.map f).get kind = f (p.get kind) := by cases kind <;> rfl

theorem PerKind.set_map {α β : Type} (f : α → β) (p : PerKind α) (kind : Kind) (a : α) :
    (p.map f).set kind (f a) = (p.set kind a).map f := by cases kind <;> rfl

/-- A new thing that looks like the old one. -/
theorem PerKind.map_set_of_eq {α β : Type} {f : α → β} {p : PerKind α} {kind : Kind} {a : α}
    (h : f a = f (p.get kind)) : (p.set kind a).map f = p.map f := by
  rw [← set_map, h, ← get_map f p kind, set_get_self]

/-! ## The L2 -/

/-- The operation with a blank word. -/
def Operation.blank : Operation → Operation
  | .read => .read
  | .write word => .write word.blank

/-- The probe with a blank word. -/
def Probe.blank (p : Probe) : Probe := { p with operation := p.operation.blank }

namespace L2

/-- The cache with blank lines. -/
def blank (c : L2) : L2 := { c with store := c.store.blank }

/-- What a probe of the blank cache led to. -/
def Probed.blank (r : Probed) : Probed := { r with cache := r.cache.blank }

/-- What an arrival at the blank cache led to. -/
def Filled.blank (r : Filled) : Filled :=
  { r with cache := r.cache.blank, memories := r.memories.map Port.blank }

variable (c : L2)

theorem probeHit_blank (p : Probe) (way : Nat) (ic : Interconnect) :
    c.blank.probeHit p.blank way ic = (c.probeHit p way ic).map Probed.blank := by
  obtain ⟨address, kind, operation⟩ := p
  apply bind_eq_map (c.store.touch_blank (c.store.geometry.locate address).index way)
  intro store
  cases operation with
  | read => rfl
  | write word =>
    apply bind_eq_map (store.line_blank _ way)
    intro line
    apply bind_eq_map (line.store_blank _ word)
    intro line'
    apply bind_eq_map (store.putLine_blank _ way line')
    exact fun _ => rfl

theorem probeMiss_blank (p : Probe) (ic : Interconnect) :
    c.blank.probeMiss p.blank ic = (c.probeMiss p ic).blank := by
  rw [probeMiss, probeMiss]
  show (if c.misses.contains (c.blockOf p.address p.kind) then _ else _) = _
  split
  · rfl
  · show (if c.misses.isFull then _ else _) = _
    split <;> rfl

/-- What a probe finds, answers and sends is not a matter of data. -/
theorem probe_blank (p : Probe) (ic : Interconnect) :
    c.blank.probe p.blank ic = (c.probe p ic).map Probed.blank := by
  apply bind_eq_map_of_eq (c.store.find_blank _ _ _)
  intro way?
  cases way? with
  | some way => exact c.probeHit_blank p way ic
  | none => exact congrArg Except.ok (c.probeMiss_blank p ic)

theorem replace_blank (s : LineStore) (place : Location) (kind : Kind) (memories : PerKind Port) :
    replace s.blank place kind (memories.map Port.blank)
      = (replace s place kind memories).map
        (Prod.map id (Prod.map LineStore.blank (PerKind.map Port.blank))) := by
  apply bind_eq_map_of_eq (s.victim_blank place.index)
  intro way
  apply bind_eq_map (s.line_blank place.index way)
  intro old
  show ((memories.map Port.blank).get old.kind).writeBack s.geometry place.index old.blank >>= _ = _
  rw [PerKind.get_map]
  apply bind_eq_map ((memories.get old.kind).writeBack_blank s.geometry place.index old)
  intro written
  obtain ⟨wrote?, port⟩ := written
  apply bind_eq_map (s.install_blank place.index way place.tag kind)
  intro installed
  show (((memories.map Port.blank).set old.kind port.blank).get kind).fetch s.geometry place.block
    >>= _ = _
  rw [PerKind.set_map, PerKind.get_map]
  apply bind_eq_map (((memories.set old.kind port).get kind).fetch_blank s.geometry place.block)
  intro fetched
  obtain ⟨words, port'⟩ := fetched
  apply bind_eq_map (installed.putWords_blank place.index way words)
  intro filled
  apply congrArg fun m => Except.ok (wrote?, filled.blank, m)
  rw [← PerKind.set_map, ← PerKind.set_map]
  rfl

/-- What an arrival drives out, and whether it is announced, is not a matter of data. -/
theorem fill_blank (block : BlockRef) (ic : Interconnect) (memories : PerKind Port) :
    c.blank.fill block ic (memories.map Port.blank)
      = (c.fill block ic memories).map Filled.blank := by
  apply bind_eq_map_of_eq (c.store.find_blank _ _ _)
  intro way?
  cases way? with
  | some way =>
    apply bind_eq_map (c.store.touch_blank _ way)
    exact fun _ => rfl
  | none =>
    apply bind_eq_map (replace_blank c.store _ block.kind memories)
    exact fun _ => rfl

end L2

end MemoryHierarchy
