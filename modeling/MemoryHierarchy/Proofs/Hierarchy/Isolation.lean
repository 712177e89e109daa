import MemoryHierarchy.Proofs.Hierarchy.Effects
import MemoryHierarchy.Proofs.Hierarchy.Stores

/-!
Instructions are never written.

Both paths share the sets and ways of the L2, its miss table and the memory controller, and a line
may pass from one path to the other. A path is `ReadOnly` as long as its memory is what it was and
no line of it is dirty. Reads keep a path read-only, and so does every arrival, since only a dirty
line is written back, and only to the memory of its own path (`L2.replace_readOnly`). No action
writes to the instruction path, so instructions stay what was preloaded (`instructions_isolated`).
-/

namespace MemoryHierarchy

open LineStore

namespace LineStore

/-- No line of path `kind` differs from its memory. -/
def CleanOn (s : LineStore) (kind : Kind) : Prop :=
  ∀ i v line, s.line? i v = some line → line.valid = true → line.kind = kind → line.dirty = false

variable {s : LineStore} {index way : Nat} {kind : Kind} {old new : Line}

theorem empty_cleanOn (g : Geometry) (k kind : Kind) : (LineStore.withData g k).CleanOn kind := by
  intro i v line hl _ _
  rw [empty_line? hl]
  rfl

theorem CleanOn.used (h : s.CleanOn kind) (hl : s.line? index way = some old)
    (hnew : new.kind = kind → new.dirty = false) : (s.used index way new).CleanOn kind := by
  intro i v line hline hvalid hkind
  rw [line?_used hl] at hline
  split at hline
  · rw [← Option.some.inj hline] at hkind ⊢
    exact hnew hkind
  · exact h i v line hline hvalid hkind

/-- What is read off the lines of a store can be read off its ways. -/
theorem CleanOn.lines (h : s.CleanOn kind) :
    ∀ line ∈ s.lines, line.valid = true → line.kind = kind → line.dirty = false := by
  intro line hline
  obtain ⟨lines, hlines, hmem⟩ := List.mem_flatten.mp hline
  obtain ⟨i, hi, rfl⟩ := List.getElem_of_mem hlines
  obtain ⟨v, hv, rfl⟩ := List.getElem_of_mem hmem
  rw [Array.getElem_toList] at hv ⊢
  apply h i v
  rw [line?_eq_some_iff]
  exact ⟨_, Array.getElem?_eq_getElem _, List.getElem?_eq_getElem hv⟩

end LineStore

/-! ## The L2 -/

theorem Port.fetch_memory (p : Port) (g : Geometry) (block : Nat) :
    Ends (p.fetch g block) (fun _ => True) fun r => r.2.memory = p.memory := by
  rw [fetch, readWords]
  apply Ends.bind' Ends.any
  intro words _
  exact Ends.pure' (note_memory _ _ _ _ _)

namespace L2

variable {s : LineStore} {c : L2} {kind : Kind} {memories : PerKind Port}

/-- A line that is given up is written to the memory of its path only if it is dirty. -/
theorem writeBack_readOnly {index way : Nat} {old : Line} (hclean : s.CleanOn kind)
    (hl : s.line? index way = some old) :
    Ends ((memories.get old.kind).writeBack s.geometry index old) (fun _ => True) fun r =>
      ((memories.set old.kind r.2).get kind).memory = (memories.get kind).memory := by
  by_cases hdirty : old.needsWriteBack = true
  · obtain ⟨hvalid, hd⟩ := Bool.and_eq_true_iff.mp hdirty
    -- a dirty line is one of the other path
    have hne : kind ≠ old.kind := by
      intro hkind
      rw [hclean _ _ _ hl hvalid hkind.symm] at hd
      cases hd
    apply Ends.any.weaken
    intro r _
    rw [PerKind.get_set_of_ne _ _ hne]
  · refine Ends.ok (Port.writeBack_clean (Bool.not_eq_true _ ▸ hdirty) index) ?_
    rw [PerKind.set_get_self]

/-- The memory of a path of which no line is dirty is what it was after a replacement, and no line
of the path is dirty then either. -/
theorem replace_readOnly (hs : s.Shaped s.geometry.wordsPerLine) (hclean : s.CleanOn kind)
    {place : Location} (hi : place.index < s.geometry.sets) (k : Kind) :
    Ends (replace s place k memories) (fun _ => True) fun r =>
      r.2.1.CleanOn kind ∧ (r.2.2.get kind).memory = (memories.get kind).memory := by
  have hmemory : Ends (replace s place k memories) (fun _ => True) fun r =>
      (r.2.2.get kind).memory = (memories.get kind).memory := by
    obtain ⟨way, old, hvictim, hl⟩ := victim_spec hs hi
    rw [replace]
    apply Ends.bind_ok hvictim
    apply Ends.bind_ok (line_eq hs hl)
    apply Ends.bind' (writeBack_readOnly hclean hl)
    intro written hwritten
    apply Ends.bind' Ends.any
    intro installed _
    apply Ends.bind' (Port.fetch_memory _ _ _)
    intro fetched hfetched
    apply Ends.bind' Ends.any
    intro filled _
    apply Ends.pure'
    by_cases hk : kind = k
    · subst hk
      rw [PerKind.get_set_self, hfetched]
      exact hwritten
    · rw [PerKind.get_set_of_ne _ _ hk]
      exact hwritten
  apply ((replace_spec hs hi k).also hmemory).weaken
  intro r hr
  obtain ⟨⟨way, old, words, -, hl, -, -, hstore⟩, hmemory⟩ := hr
  rw [hstore]
  exact ⟨hclean.used hl fun _ => rfl, hmemory⟩

theorem fill_readOnly (hs : c.store.Shaped c.store.geometry.wordsPerLine)
    (hclean : c.store.CleanOn kind) (block : BlockRef) (ic : Interconnect) :
    Ends (c.fill block ic memories) (fun _ => True) fun r =>
      r.cache.store.CleanOn kind ∧ (r.memories.get kind).memory = (memories.get kind).memory := by
  have hi := Geometry.locate_index_lt (g := c.store.geometry) block.address
  rw [fill]
  rcases find_spec hs hi (c.store.geometry.locate block.address).tag block.kind with
    ⟨way, line, hfind, hl, hholds⟩ | ⟨hfind, -⟩
  · apply Ends.bind_ok hfind
    apply Ends.bind' ((touch_spec hs hl).faults fun _ _ => trivial)
    intro store hstore
    subst hstore
    have hvalid : line.valid = true := (holds_iff.mp hholds).1
    exact Ends.pure' ⟨hclean.used hl (hclean _ _ _ hl hvalid), rfl⟩
  · apply Ends.bind_ok hfind
    apply Ends.bind' (replace_readOnly hs hclean hi block.kind)
    intro r hr
    exact Ends.pure' hr

/-- A probe that only reads, or is one of the other path, makes no line dirty. -/
theorem served_readOnly {p : Probe} {way : Nat} {line : Line} (hclean : c.store.CleanOn kind)
    (hc : c.store.CopyAt (c.store.geometry.locate p.address).index way
      (c.blockOf p.address p.kind) line)
    (hread : p.kind = kind → p.operation = .read) (ic : Interconnect) :
    (c.served p way line ic).cache.store.CleanOn kind := by
  apply hclean.used hc.here
  intro hkind
  have hsame : (p.operation.perform (c.store.geometry.locate p.address).offset line).kind
      = line.kind := by cases p.operation <;> rfl
  have hline : line.kind = kind := hsame.symm.trans hkind
  rw [hread (hc.kind.symm.trans hline)]
  exact hclean _ _ _ hc.here hc.valid hline

end L2

/-! ## The hierarchy -/

namespace Hierarchy

/-- The memory of path `kind` is still `memory`, and no line of the path is dirty. -/
structure ReadOnly (kind : Kind) (memory : Memory) (h : Hierarchy) : Prop where
  memory_eq : (h.memories.get kind).memory = memory
  clean : h.l2.store.CleanOn kind

variable {frame : Frame} {contents : Kind → Nat → Word} {held : List BlockRef} {h : Hierarchy}
  {kind : Kind} {memory : Memory}

/-- Everything but the L2 and the memories is of no account. -/
theorem ReadOnly.of_eq (hr : h.ReadOnly kind memory) {h' : Hierarchy}
    (hstore : h'.l2.store = h.l2.store) (hmemories : h'.memories = h.memories) :
    h'.ReadOnly kind memory :=
  ⟨hmemories ▸ hr.memory_eq, hstore ▸ hr.clean⟩

theorem probe_readOnly (hs : h.Sound frame contents held) (hr : h.ReadOnly kind memory) {p : Probe}
    (hread : p.kind = kind → p.operation = .read) :
    Ends (h.probe p) Overflows fun r => r.2.ReadOnly kind memory := by
  apply (probe_effect hs p).weaken
  intro r hr'
  obtain ⟨probed, rfl, ⟨way, line, hc, rfl⟩ | ⟨-, rfl⟩⟩ := hr'
  · exact ⟨hr.memory_eq, L2.served_readOnly hr.clean hc hread h.interconnect⟩
  · exact hr.of_eq (h.l2.probeMiss_store p h.interconnect) rfl

theorem access_readOnly (hs : h.Sound frame contents []) (hr : h.ReadOnly kind memory) (k : Kind)
    {a : Nat} (ha : a < frame.memoryBytes) :
    Ends (h.access k a) Overflows fun r => r.2.ReadOnly kind memory := by
  rw [access]
  apply Ends.bind_ok (checkAddress_eq hs ha)
  apply Ends.bind' ((lookUp_effect hs k a).also (lookUp_sound hs k a))
  intro found hfound
  obtain ⟨lookup, h₁⟩ := found
  obtain ⟨⟨l1, hh₁, -⟩, hs₁, hprobe⟩ := hfound
  dsimp only at hh₁
  have hr₁ : h₁.ReadOnly kind memory := by
    rw [hh₁]
    exact hr.of_eq rfl rfl
  cases lookup with
  | hit => exact Ends.pure' hr₁
  | miss p =>
    apply Ends.bind' (probe_readOnly hs₁ hr₁ fun _ => (hprobe p rfl).2)
    exact fun _ hr₂ => Ends.pure' hr₂

/-- A write leaves every path read-only but that of data. -/
theorem write_readOnly (hs : h.Sound frame contents []) (hr : h.ReadOnly kind memory)
    (hkind : kind ≠ .data) {a : Nat} (ha : a < frame.memoryBytes) (word : Word) :
    Ends (h.write a word) Overflows fun r => r.2.ReadOnly kind memory := by
  rw [write]
  apply Ends.bind_ok (checkAddress_eq hs ha)
  apply Ends.bind' ((lookUp_effect hs .data a).also (lookUp_sound hs .data a))
  intro found hfound
  obtain ⟨lookup, h₁⟩ := found
  obtain ⟨⟨l1, hh₁, -⟩, hs₁, -⟩ := hfound
  dsimp only at hh₁
  have hr₁ : h₁.ReadOnly kind memory := by
    rw [hh₁]
    exact hr.of_eq rfl rfl
  apply Ends.bind' (probe_readOnly hs₁ hr₁ fun hdata => absurd hdata.symm hkind)
  intro probed hprobed
  apply Ends.bind' (Counters.incrementIf_ends _ _ _)
  intro counters _
  exact Ends.pure' (hprobed.of_eq rfl rfl)

theorem cancel_readOnly (hr : h.ReadOnly kind memory) (k : Kind) (a : Nat) :
    Ends (h.cancel k a) Overflows fun r => r.2.ReadOnly kind memory := by
  rw [cancel]
  apply Ends.bind' (Counters.incrementIf_ends _ _ _)
  intro counters _
  exact Ends.pure' (hr.of_eq rfl rfl)

theorem deliver_readOnly {m : Message} {due : List Message}
    (hs : h.Sound frame contents (carried (m :: due))) (hr : h.ReadOnly kind memory) :
    Ends (h.deliver m) (fun _ => True) fun h' => h'.ReadOnly kind memory := by
  obtain ⟨b, remaining, route⟩ := m
  rw [deliver]
  apply Ends.bind' Ends.any
  intro counters _
  cases route with
  | l2ToL1 =>
    apply Ends.bind' Ends.any
    intro inserted _
    apply Ends.bind' Ends.any
    intro counters' _
    exact Ends.pure' (hr.of_eq rfl rfl)
  | l2ToMemory =>
    apply Ends.bind' Ends.any
    intro added _
    apply Ends.bind' Ends.any
    intro counters' _
    exact Ends.pure' (hr.of_eq rfl rfl)
  | memoryToL2 =>
    apply Ends.bind' (L2.fill_readOnly hs.coherent.sound.shaped hr.clean b h.interconnect)
    intro filled hfilled
    apply Ends.bind' Ends.any
    intro counters' _
    apply Ends.bind' Ends.any
    intro counters'' _
    exact Ends.pure' ⟨hfilled.2.trans hr.memory_eq, hfilled.1⟩

theorem deliverDue_readOnly (hs : h.Sound frame contents []) (hr : h.ReadOnly kind memory) :
    Ends h.deliverDue Overflows fun h' => h'.ReadOnly kind memory := by
  have hboth : Ends h.deliverDue Overflows fun h' =>
      h'.Sound frame contents (carried []) ∧ h'.ReadOnly kind memory := by
    apply Ends.foldlM' (fun due (h : Hierarchy) =>
      h.Sound frame contents (carried due) ∧ h.ReadOnly kind memory) ?_ _ _
      ⟨due_sound hs, hr.of_eq rfl rfl⟩
    intro m due h hh
    exact (deliver_sound hh.1).also (deliver_readOnly hh.1 hh.2)
  exact hboth.weaken fun _ hh => hh.2

theorem tick_readOnly (hs : h.Sound frame contents []) (hr : h.ReadOnly kind memory) :
    Ends h.tick Overflows fun h' => h'.ReadOnly kind memory := by
  apply (tick_effect hs).weaken
  intro h' hticked
  -- after the deliveries, a tick changes neither the L2 nor a memory
  obtain ⟨h₁, done, dram, counters, hdue, -⟩ := hticked
  exact ((deliverDue_readOnly hs hr).of_ok hdue).of_eq rfl rfl

theorem perform_readOnly (hs : h.Sound frame contents []) (hr : h.ReadOnly kind memory)
    (hkind : kind ≠ .data) {action : Action} (haction : action.InRange frame.memoryBytes) :
    Ends (h.perform action) Overflows fun r => r.2.ReadOnly kind memory := by
  cases action with
  | access k a =>
    apply Ends.bind' (access_readOnly hs hr k haction)
    exact fun _ hr' => Ends.pure' hr'
  | write a word =>
    apply Ends.bind' (write_readOnly hs hr hkind haction word)
    exact fun _ hr' => Ends.pure' hr'
  | cancel k a =>
    apply Ends.bind' (cancel_readOnly hr k a)
    exact fun _ hr' => Ends.pure' hr'
  | tick =>
    apply Ends.bind' (tick_readOnly hs hr)
    exact fun _ hr' => Ends.pure' hr'

theorem run_readOnly (hs : h.Sound frame contents []) (hr : h.ReadOnly kind memory)
    (hkind : kind ≠ .data) (actions : List Action)
    (hactions : ∀ action ∈ actions, action.InRange frame.memoryBytes) :
    Ends (record perform h actions) Overflows fun r =>
      r.2.Holds frame contents [] r.1 ∧ r.2.ReadOnly kind memory := by
  apply Ends.record (fun rest past (h : Hierarchy) =>
    h.Holds frame contents rest past ∧ h.ReadOnly kind memory) ?_ actions [] h
    ⟨⟨hactions, List.forall_mem_nil _, hs⟩, hr⟩
  intro action rest past h hh
  have haction := hh.1.inRange action (List.mem_cons_self ..)
  exact hh.1.perform.also (perform_readOnly hh.1.sound hh.2 hkind haction)

/-- A word of a path that is only read is seen in the L2 as it is in memory. -/
theorem ReadOnly.readWord?_eq (hr : h.ReadOnly kind memory) (hs : h.Sound frame contents held)
    {a : Nat} {word : Word} (hword : h.l2.readWord? a kind = .ok (some word)) :
    memory.readWord (frame.geometry.wordIndex a * frame.geometry.word.bytes) = .ok word := by
  rw [L2.readWord?_eq hs.coherent] at hword
  split at hword
  · next hres =>
    obtain ⟨i, v, line, hc⟩ := hres
    obtain rfl := Option.some.inj (Except.ok.inj hword)
    have hclean := hr.clean _ _ _ hc.here hc.valid hc.kind
    obtain ⟨hi, hget⟩ := Array.getElem?_eq_some_iff.mp
      (hs.coherent.clean_eq hc hclean (Geometry.home_wordIndex a))
    have hread : (h.memories.get kind).memory.readWord
        (h.l2.store.geometry.wordIndex a * (h.memories.get kind).memory.wordBytes)
          = .ok (contents kind (h.l2.store.geometry.wordIndex a)) :=
      (Memory.readWord_eq hi).trans (congrArg Except.ok hget)
    rw [← hs.geometry, ← (hs.coherent.fits kind).wordBytes, ← hr.memory_eq]
    exact hread
  · cases Except.ok.inj hword

/-! ## Instructions -/

/-- The instruction memory is what it was in `start`, the instruction lines of the L2 are clean,
and each word they show is the one that `start` has in its memory at the address, less the bits
that a machine word drops. -/
structure InstructionsKept (c : Config) (start h : Hierarchy) : Prop where
  memory : h.memories.instruction.memory = start.memories.instruction.memory
  clean : ∀ line ∈ h.l2.store.lines, line.valid = true → line.kind = .instruction →
    line.dirty = false
  words : ∀ a word, h.l2.readWord? a .instruction = .ok (some word) →
    start.memories.instruction.memory.readWord
      (a % twoPow c.general.wordBits.toNat / c.wordBytes * c.wordBytes) = .ok word

/-- A hierarchy starts without any line that could be dirty. -/
theorem start_readOnly {c : Config} {h₀ start : Hierarchy} {loads : List Preload}
    (hbuild : ofConfig? c = .ok h₀) (hload : h₀.preload loads = .ok start) (kind : Kind) :
    start.ReadOnly kind (start.memories.get kind).memory := by
  obtain ⟨g, hg, rfl, -⟩ := ofConfig?_sound hbuild
  obtain ⟨memories, rfl, -⟩ :=
    preload_eq loads hload (zeroed_fits (Config.validate_accepted hg))
  exact ⟨rfl, empty_cleanOn _ _ _⟩

/-- **Instruction isolation.** Whatever is preloaded and whatever is done, instruction memory stays
as it was preloaded, no instruction line of the L2 is ever dirty, and every instruction word in
the L2 is the preloaded one. The actions go through unless a number does not fit its word. -/
theorem instructions_isolated {c : Config} {h₀ start : Hierarchy} {loads : List Preload}
    (hbuild : ofConfig? c = .ok h₀) (hload : h₀.preload loads = .ok start) (actions : List Action)
    (hactions : ∀ action ∈ actions, action.InRange c.general.memoryBytes.toNat) :
    Ends (record perform start actions) Overflows fun r => InstructionsKept c start r.2 := by
  obtain ⟨g, hg, hs, -⟩ := start_sound hbuild hload
  have hr : start.ReadOnly .instruction start.memories.instruction.memory :=
    start_readOnly hbuild hload .instruction
  apply (run_readOnly hs hr (by decide) actions hactions).weaken
  intro r hboth
  obtain ⟨hholds, hr'⟩ := hboth
  refine ⟨hr'.memory_eq, hr'.clean.lines, ?_⟩
  intro a word hword
  rw [← span_eq hg, hg.wordBytes_eq]
  exact hr'.readWord?_eq hholds.sound hword

/-- A data block is written, driven out of its set by the instruction block of the same address and
written back. Data memory has the new word, and the instruction word is the preloaded one. -/
theorem instructions_isolated_same_address :
    ∃ (c : Config) (h₀ start : Hierarchy) (r : List (Action × Reply) × Hierarchy)
      (actions : List Action),
      ofConfig? c = .ok h₀
        ∧ h₀.preload [⟨.instruction, 0, [1, 2, 3, 4]⟩, ⟨.data, 0, [5, 6, 7, 8]⟩] = .ok start
        ∧ (∀ action ∈ actions, action.InRange c.general.memoryBytes.toNat)
        ∧ .write 0 9 ∈ actions ∧ record perform start actions = .ok r
        ∧ r.2.dataWord 0 = .ok 9 ∧ r.2.l2.readWord? 0 .instruction = .ok (some 1)
        ∧ InstructionsKept c start r.2 := by
  let actions : List Action :=
    [.access .data 0, .tick, .tick, .tick, .tick, .write 0 9, .access .instruction 0, .tick, .tick,
      .tick, .tick]
  obtain ⟨h₀, hbuild, start, hload, r, hrun, hdata, hinstruction⟩ : ∃ h₀,
      ofConfig?
          { general := { wordBits := 8, memoryBytes := 16 }
            caches := { l1Instruction := ⟨4, 1, 4⟩, l1Data := ⟨4, 1, 4⟩, l2 := ⟨8, 1, 4⟩ }
            missTracking := { entries := 2 }
            latencies := ⟨1, 1, 1⟩
            dram := ⟨1, 4, 1, 1, 1⟩ } = .ok h₀
        ∧ ∃ start,
          h₀.preload [⟨.instruction, 0, [1, 2, 3, 4]⟩, ⟨.data, 0, [5, 6, 7, 8]⟩] = .ok start
        ∧ ∃ r, record perform start actions = .ok r ∧ r.2.dataWord 0 = .ok 9
          ∧ r.2.l2.readWord? 0 .instruction = .ok (some 1) :=
    ⟨_, rfl, _, rfl, _, rfl, rfl, rfl⟩
  have hactions : ∀ action ∈ actions, action.InRange 16 := by
    simp [actions, Action.InRange]
  exact ⟨_, h₀, start, r, actions, hbuild, hload, hactions, by simp [actions], hrun, hdata,
    hinstruction, (instructions_isolated hbuild hload actions hactions).of_ok hrun⟩

end Hierarchy

end MemoryHierarchy
