import MemoryHierarchy.Proofs.Hierarchy.Actions

/-!
Whether stores land at their own address.

The L2 drops the address bits above a machine word. So two addresses that differ by the span of a
machine word are one place in the L2, and two places in memory. Every store of a hierarchy lands
at its own address if its memory is no larger than that span, and only if (`stores_land`).
-/

namespace MemoryHierarchy.Hierarchy

open LineStore

/-! ## What is seen and what was stored -/

/-- The word of data memory that the byte at an address belongs to. -/
def dataWord (h : Hierarchy) (a : Nat) : Except Fault Word :=
  h.memories.data.memory.readWord
    (a / h.memories.data.memory.wordBytes * h.memories.data.memory.wordBytes)

/-- The data word at an address: that of the L2 if the block is resident, or else that of
memory. -/
def visible (h : Hierarchy) (a : Nat) : Except Fault Word := do
  match ← h.l2.readWord? a .data with
  | some word => return word
  | none => h.dataWord a

/-- Words to be copied into a memory. -/
structure Preload where
  kind : Kind
  address : Nat
  words : List Word

/-- Copies words into the memories. -/
def preload (h : Hierarchy) (loads : List Preload) : Except Fault Hierarchy :=
  loads.foldlM (fun h l => h.load l.kind l.address l.words) h

/-- The word that an action stores in the machine word of an address, if it was answered like
this. -/
def written? (wordBytes a : Nat) : Action × Reply → Option Word
  | (.write b word, .written .hit) => if b / wordBytes = a / wordBytes then some word else none
  | _ => none

/-- The word last stored in the machine word of an address. The latest action comes first. -/
def lastWritten? (wordBytes a : Nat) (history : List (Action × Reply)) : Option Word :=
  history.findSome? (written? wordBytes a)

/-- Every store so far is seen at its own address, and a further write changes no other word. -/
structure Landed (c : Config) (start : Hierarchy) (history : List (Action × Reply))
    (h : Hierarchy) : Prop where
  own : ∀ a, a < c.general.memoryBytes.toNat → ∃ initial, start.dataWord a = .ok initial
    ∧ h.visible a = .ok ((lastWritten? c.wordBytes a history).getD initial)
  others : ∀ b word outcome h', b < c.general.memoryBytes.toNat →
    h.write b word = .ok (outcome, h') → ∀ a, a < c.general.memoryBytes.toNat →
      outcome = .miss ∨ b / c.wordBytes ≠ a / c.wordBytes → h'.visible a = h.visible a

/-- Whatever is preloaded and whatever is done, stores land at their own address. -/
def StoresLand (c : Config) : Prop :=
  ∀ h₀ loads start, ofConfig? c = .ok h₀ → h₀.preload loads = .ok start →
    ∀ actions : List Action, (∀ action ∈ actions, action.InRange c.general.memoryBytes.toNat) →
      Ends (record perform start actions) Overflows fun r => Landed c start r.1 r.2

/-- In some run a write hits. -/
def SomeWriteHits (c : Config) : Prop :=
  ∃ h₀ loads start, ofConfig? c = .ok h₀ ∧ h₀.preload loads = .ok start ∧
    ∃ actions : List Action, (∀ action ∈ actions, action.InRange c.general.memoryBytes.toNat) ∧
      ∃ r, record perform start actions = .ok r ∧
        ∃ b word h', b < c.general.memoryBytes.toNat ∧ r.2.write b word = .ok (.hit, h')

/-! ## Preloaded memories -/

variable {frame : Frame} {contents : Kind → Nat → Word} {h : Hierarchy} {g : Geometry} {a : Nat}

theorem load_memory {m m' : Memory} {address : Nat} {words : List Word}
    (h : m.load address words = .ok m') :
    m'.wordBytes = m.wordBytes ∧ m'.sizeBytes = m.sizeBytes := by
  obtain ⟨start, -, h⟩ := bind_eq_ok.mp h
  split at h
  · obtain rfl := Except.ok.inj h
    exact ⟨Memory.put_wordBytes m start words, Memory.put_sizeBytes m start words⟩
  · cases h

/-- Preloading changes the words of the memories and nothing else. -/
theorem preload_eq {bytes : Nat} : ∀ (loads : List Preload) {h h' : Hierarchy},
    h.preload loads = .ok h' →
      (∀ kind, (h.memories.get kind).Fits g ∧ (h.memories.get kind).memory.sizeBytes = bytes) →
      ∃ memories, h' = { h with memories }
        ∧ ∀ kind, (memories.get kind).Fits g ∧ (memories.get kind).memory.sizeBytes = bytes
  | [], h, h', hload, hfits => by
    obtain rfl := Except.ok.inj hload
    exact ⟨h.memories, rfl, hfits⟩
  | l :: rest, h, h', hload, hfits => by
    rw [preload, List.foldlM_cons] at hload
    obtain ⟨h₁, hstep, hload⟩ := bind_eq_ok.mp hload
    obtain ⟨memory, hmemory, hstep⟩ := bind_eq_ok.mp hstep
    obtain rfl := Except.ok.inj hstep
    obtain ⟨hbytes, hsize⟩ := load_memory hmemory
    -- What is loaded keeps the number of words, so the next load finds memories that fit.
    have hfits₁ : ∀ kind, ((h.memories.set l.kind
          { h.memories.get l.kind with memory }).get kind).Fits g
        ∧ ((h.memories.set l.kind { h.memories.get l.kind with memory }).get kind).memory.sizeBytes
          = bytes := by
      apply PerKind.forall_get_set (P := fun _ (p : Port) => p.Fits g ∧ p.memory.sizeBytes = bytes)
      · obtain ⟨⟨hb, hw⟩, hs⟩ := hfits l.kind
        exact ⟨⟨hbytes.trans hb, hsize ▸ hw⟩, hsize.trans hs⟩
      · exact fun kind _ => hfits kind
    obtain ⟨memories, rfl, hfits'⟩ := preload_eq rest hload hfits₁
    exact ⟨memories, rfl, hfits'⟩

/-! ## What is seen -/

/-- What is seen in a resident block is the contents. -/
theorem visible_of_resident (hs : h.Sound frame contents [])
    (hres : h.l2.store.Resident ⟨(frame.geometry.locate a).block, .data⟩) :
    h.visible a = .ok (contents .data (frame.geometry.wordIndex a)) := by
  rw [← hs.geometry] at hres ⊢
  rw [visible, L2.readWord?_eq hs.coherent, if_pos]
  · rfl
  · exact hres

/-- Below the span of a machine word, what is seen is the contents. -/
theorem visible_of_lt_span (hs : h.Sound frame contents []) (ha : a < frame.memoryBytes)
    (hspan : a < frame.geometry.span) :
    h.visible a = .ok (contents .data (a / frame.geometry.word.bytes)) := by
  have hindex : frame.geometry.wordIndex a = a / frame.geometry.word.bytes := by
    rw [Geometry.wordIndex, Nat.mod_eq_of_lt hspan]
  by_cases hres : h.l2.store.Resident ⟨(frame.geometry.locate a).block, .data⟩
  · rw [visible_of_resident hs hres, hindex]
  · have hbytes : h.memories.data.memory.wordBytes = frame.geometry.word.bytes := by
      rw [← hs.geometry]
      exact (hs.coherent.fits .data).wordBytes
    have hread : a % h.l2.store.geometry.span < frame.memoryBytes →
        ¬h.l2.store.Resident ⟨(h.l2.store.geometry.locate a).block, .data⟩ →
        h.memories.data.memory.readWord
            (h.l2.store.geometry.wordIndex a * h.l2.store.geometry.word.bytes)
          = .ok (contents .data (h.l2.store.geometry.wordIndex a)) :=
      hs.coherent.readWord_eq
    rw [hs.geometry, hindex, Nat.mod_eq_of_lt hspan] at hread
    rw [visible, L2.readWord?_eq hs.coherent, if_neg]
    · -- memory is read at the address itself, which no bit is dropped from
      show h.dataWord a = _
      rw [dataWord, hbytes]
      exact hread ha hres
    · rw [L2.blockOf, hs.geometry]
      exact hres

/-- The first word of data memory at an address of the memory. -/
theorem dataWord_eq {bytes : Nat} (hfits : h.memories.data.Fits g)
    (hsize : h.memories.data.memory.sizeBytes = bytes) (ha : a < bytes) :
    h.dataWord a = .ok (wordsOf h.memories .data (a / g.word.bytes)) := by
  have hlt : a / g.word.bytes < h.memories.data.memory.words.size := by
    rw [Memory.sizeBytes, hfits.wordBytes] at hsize
    apply Nat.div_lt_of_lt_mul
    rw [Nat.mul_comm, hsize]
    exact ha
  rw [dataWord, hfits.wordBytes]
  have hread := Memory.readWord_eq hlt
  rw [hfits.wordBytes] at hread
  rw [hread]
  show Except.ok _ = Except.ok (h.memories.data.memory.words[a / g.word.bytes]?.getD 0)
  rw [Array.getElem?_eq_getElem hlt, Option.getD_some]

/-! ## Memories within the span -/

/-- Where no address is dropped to another one, positions are machine words. -/
theorem lastStored?_eq {bytes : Nat} (hle : bytes ≤ g.span) :
    ∀ {history : List (Action × Reply)}, (∀ entry ∈ history, entry.1.InRange bytes) →
      lastStored? g .data (a / g.word.bytes) history = lastWritten? g.word.bytes a history
  | [], _ => rfl
  | (action, reply) :: rest, hrange => by
    have hrest := lastStored?_eq hle fun entry h => hrange entry (List.mem_cons_of_mem _ h)
    -- The two differ for writes that hit only, and there by the dropped bits of their address.
    have hentry : stored? g .data (a / g.word.bytes) (action, reply)
        = written? g.word.bytes a (action, reply) := by
      cases action with
      | write b word =>
        cases reply with
        | written outcome =>
          cases outcome with
          | hit =>
            have hb : b < bytes := hrange _ (List.mem_cons_self ..)
            rw [stored?, written?, Geometry.wordIndex, Nat.mod_eq_of_lt (Nat.lt_of_lt_of_le hb hle)]
            congr 1
            rw [eq_iff_iff]
            exact ⟨fun h => h.2.symm, fun h => ⟨rfl, h.symm⟩⟩
          | miss => rfl
        | _ => rfl
      | _ => rfl
    rw [lastStored?, lastWritten?, List.findSome?_cons, List.findSome?_cons, hentry]
    rw [lastStored?, lastWritten?] at hrest
    rw [hrest]

theorem write_changes_own_word (hs : h.Sound frame contents [])
    (hle : frame.memoryBytes ≤ frame.geometry.span) {b : Nat} {word : Word} {outcome : Outcome}
    {h' : Hierarchy} (hb : b < frame.memoryBytes)
    (hwrite : h.write b word = .ok (outcome, h')) (ha : a < frame.memoryBytes)
    (hother : outcome = .miss ∨ b / frame.geometry.word.bytes ≠ a / frame.geometry.word.bytes) :
    h'.visible a = h.visible a := by
  have hspan : ∀ {x}, x < frame.memoryBytes → x < frame.geometry.span :=
    fun hx => Nat.lt_of_lt_of_le hx hle
  have hs' := ((write_sound hs hb word).of_ok hwrite).1
  rw [visible_of_lt_span hs ha (hspan ha), visible_of_lt_span hs' ha (hspan ha)]
  congr 1
  cases outcome with
  | miss => rfl
  | hit =>
    rcases hother with hmiss | hne
    · cases hmiss
    · show (if _ then _ else _) = _
      rw [if_neg]
      intro hsame
      have heq := hsame.2
      rw [Geometry.wordIndex, Nat.mod_eq_of_lt (hspan hb)] at heq
      exact hne heq.symm

/-! ## Memories beyond the span -/

theorem probe_hit_of_hit (hs : h.Sound frame contents []) {kind : Kind} {op : Operation}
    (op' : Operation) {h' : Hierarchy} (hprobe : h.probe ⟨a, kind, op⟩ = .ok (.hit, h')) :
    ∃ h'', h.probe ⟨a, kind, op'⟩ = .ok (.hit, h'') ∧ h''.counters = h'.counters := by
  obtain ⟨probed, hprobed, hprobe⟩ := bind_eq_ok.mp hprobe
  obtain ⟨counters, hcounters, hprobe⟩ := bind_eq_ok.mp hprobe
  obtain ⟨hresponse, rfl⟩ := Prod.mk.inj (Except.ok.inj hprobe)
  obtain ⟨probed', hprobed', hresponse'⟩ :=
    L2.probe_hit_of_hit hs.coherent.sound op' hprobed hresponse
  refine ⟨{ h with l2 := probed'.cache, interconnect := probed'.interconnect, counters }, ?_, rfl⟩
  rw [hresponse, ← hresponse'] at hcounters
  rw [← hresponse']
  exact bind_eq_ok.mpr ⟨probed', hprobed', bind_eq_ok.mpr ⟨counters, hcounters, rfl⟩⟩

/-- Whether a write hits does not depend on its word. -/
theorem write_hit_of_hit (hs : h.Sound frame contents []) {word : Word} (word' : Word)
    {h' : Hierarchy} (hwrite : h.write a word = .ok (.hit, h')) :
    ∃ h'', h.write a word' = .ok (.hit, h'') := by
  obtain ⟨_, hcheck, hwrite⟩ := bind_eq_ok.mp hwrite
  obtain ⟨⟨lookup, h₁⟩, hlookup, hwrite⟩ := bind_eq_ok.mp hwrite
  obtain ⟨⟨response, h₂⟩, hprobe, hwrite⟩ := bind_eq_ok.mp hwrite
  obtain ⟨counters, hcounters, hwrite⟩ := bind_eq_ok.mp hwrite
  obtain ⟨houtcome, -⟩ := Prod.mk.inj (Except.ok.inj hwrite)
  cases response with
  | miss disposition => cases houtcome
  | hit =>
    have hs₁ := ((lookUp_sound hs .data a).of_ok hlookup).1
    obtain ⟨h₃, hprobe', hsame⟩ := probe_hit_of_hit hs₁ (.write word') hprobe
    refine ⟨{ h₃ with counters }, bind_eq_ok.mpr ⟨_, hcheck, bind_eq_ok.mpr ⟨_, hlookup,
      bind_eq_ok.mpr ⟨_, hprobe', bind_eq_ok.mpr ⟨counters, ?_, rfl⟩⟩⟩⟩⟩
    rw [← hsame] at hcounters
    exact hcounters

/-- The address of another machine word that the L2 takes for the same. -/
def double (g : Geometry) (b : Nat) : Nat := if b < g.span then b + g.span else b - g.span

/-- A memory beyond the span holds the double of each of its addresses. -/
theorem double_lt {bytes k b : Nat} (hbytes : bytes = twoPow k) (hlt : g.span < bytes)
    (hb : b < bytes) : double g b < bytes := by
  have htwice : 2 * g.span ≤ bytes := by
    rw [hbytes, Geometry.span] at hlt ⊢
    have hk := twoPow_le_iff.mpr (Nat.succ_le_of_lt (twoPow_lt_iff.mp hlt))
    rw [Nat.succ_eq_add_one, Nat.add_comm, twoPow_add] at hk
    exact hk
  rw [double]
  split <;> omega

theorem double_mod (b : Nat) : double g b % g.span = b % g.span := by
  rw [double]
  split
  · rw [Nat.add_mod_right]
  · exact (Nat.mod_eq_sub_mod (by omega)).symm

theorem double_word_ne (b : Nat) : b / g.word.bytes ≠ double g b / g.word.bytes := by
  have hpos := g.word.bytes_pos
  obtain ⟨n, hn⟩ := g.bytes_dvd_span
  have hspan := g.span_pos
  have hn' : 0 < n := by
    apply Nat.pos_of_ne_zero
    intro hzero
    rw [hn, hzero, Nat.mul_zero] at hspan
    exact Nat.lt_irrefl _ hspan
  rw [double]
  split
  · rw [hn, Nat.add_mul_div_left _ _ hpos]
    omega
  · have hle : g.word.bytes * n ≤ b := by omega
    rw [hn, Nat.sub_mul_div_of_le _ _ _ hle]
    have := Nat.div_le_div_right (c := g.word.bytes) hle
    rw [Nat.mul_div_cancel_left _ hpos] at this
    omega

/-- A word that is stored is seen at the double of its address as well. -/
theorem write_seen_at_double (hs : h.Sound frame contents []) {b : Nat} {word : Word}
    {h' : Hierarchy} (hb : b < frame.memoryBytes) (hwrite : h.write b word = .ok (.hit, h')) :
    h'.visible (double frame.geometry b) = .ok word := by
  obtain ⟨hs', hres⟩ := (write_sound hs hb word).of_ok hwrite
  have hblock : (frame.geometry.locate (double frame.geometry b)).block
      = (frame.geometry.locate b).block := by
    rw [Geometry.locate_block, Geometry.locate_block, double_mod]
  have hindex : frame.geometry.wordIndex (double frame.geometry b)
      = frame.geometry.wordIndex b := by
    rw [Geometry.wordIndex, Geometry.wordIndex, double_mod]
  rw [visible_of_resident hs' (by rw [hblock]; exact hres rfl), hindex]
  exact congrArg Except.ok (if_pos ⟨rfl, rfl⟩)

/-! ## Where stores land -/

/-- What is known of a run from preloaded memories. -/
theorem start_sound {c : Config} {h₀ start : Hierarchy} {loads : List Preload}
    (hbuild : ofConfig? c = .ok h₀) (hload : h₀.preload loads = .ok start) :
    ∃ g, c.Accepted g ∧ start.Sound (Frame.ofConfig c g) (wordsOf start.memories) []
      ∧ ∀ a, a < c.general.memoryBytes.toNat →
        start.dataWord a = .ok (wordsOf start.memories .data (a / g.l2.word.bytes)) := by
  obtain ⟨g, hg, rfl, -⟩ := ofConfig?_sound hbuild
  have haccepted := Config.validate_accepted hg
  obtain ⟨memories, rfl, hfits⟩ := preload_eq loads hload (zeroed_fits haccepted)
  refine ⟨g, haccepted, ?_, ?_⟩
  · exact build_sound hg memories (fun kind => (hfits kind).1) fun kind => (hfits kind).2
  · intro a ha
    exact dataWord_eq (hfits .data).1 (hfits .data).2 ha

theorem span_eq {c : Config} {g : Config.Geometries} (hc : c.Accepted g) :
    g.l2.span = twoPow c.general.wordBits.toNat := by
  rw [Geometry.span, hc.wordBits]

theorem stores_land_within {c : Config}
    (hle : c.general.memoryBytes.toNat ≤ twoPow c.general.wordBits.toNat) : StoresLand c := by
  intro h₀ loads start hbuild hload actions hactions
  obtain ⟨g, hg, hs, hword⟩ := start_sound hbuild hload
  rw [← span_eq hg] at hle
  apply (run_sound hs actions hactions).weaken
  intro r hr
  obtain ⟨history, h⟩ := r
  obtain ⟨-, hrange, hs'⟩ := hr
  refine ⟨?_, ?_⟩
  · intro a ha
    refine ⟨_, hword a ha, ?_⟩
    rw [hg.wordBytes_eq, ← lastStored?_eq hle hrange]
    exact visible_of_lt_span hs' ha (Nat.lt_of_lt_of_le ha hle)
  · intro b word outcome h' hb hwrite a ha hother
    rw [hg.wordBytes_eq] at hother
    exact write_changes_own_word hs' hle hb hwrite ha hother

theorem within_of_stores_land {c : Config} (hhits : SomeWriteHits c) (hland : StoresLand c) :
    c.general.memoryBytes.toNat ≤ twoPow c.general.wordBits.toNat := by
  obtain ⟨h₀, loads, start, hbuild, hload, actions, hactions, r, hrun, b, word, h', hb, hwrite⟩ :=
    hhits
  obtain ⟨g, hg, hs, hword⟩ := start_sound hbuild hload
  rw [← span_eq hg]
  apply Nat.le_of_not_lt
  intro hlt
  obtain ⟨k, hk⟩ := hg.memory
  have hdouble : double g.l2 b < c.general.memoryBytes.toNat := double_lt hk hlt hb
  have hs' := ((run_sound hs actions hactions).of_ok hrun).sound
  have hlanded := (hland h₀ loads start hbuild hload actions hactions).of_ok hrun
  obtain ⟨initial, -, hbefore⟩ := hlanded.own (double g.l2 b) hdouble
  -- a word that differs from the one seen at the double
  generalize (lastWritten? c.wordBytes (double g.l2 b) r.1).getD initial = seen at hbefore
  obtain ⟨h'', hwrite'⟩ := write_hit_of_hit hs' (seen + 1) hwrite
  have hsame := hlanded.others b (seen + 1) .hit h'' hb hwrite' (double g.l2 b) hdouble
    (.inr (by rw [hg.wordBytes_eq]; exact double_word_ne b))
  have hdoubled : h''.visible (double g.l2 b) = .ok (seen + 1) :=
    write_seen_at_double hs' hb hwrite'
  rw [hbefore, hdoubled] at hsame
  have hone : (1 : Word) = 0 := UInt32.add_eq_left.mp (Except.ok.inj hsame)
  exact absurd hone (by decide)

/-- **Where stores land.** If memory is no larger than what a machine word can address, then every
store lands at its own address, whatever is preloaded and whatever is done. If memory is larger and
any write hits at all, then not. -/
theorem stores_land (c : Config) :
    (c.general.memoryBytes.toNat ≤ twoPow c.general.wordBits.toNat → StoresLand c)
      ∧ (SomeWriteHits c → StoresLand c →
        c.general.memoryBytes.toNat ≤ twoPow c.general.wordBits.toNat) :=
  ⟨stores_land_within, within_of_stores_land⟩

/-- Machine words of eight bits and caches of a line or two. -/
def eightBits (memoryBytes : UInt64) : Config where
  general := { wordBits := 8, memoryBytes }
  caches := { l1Instruction := ⟨4, 1, 4⟩, l1Data := ⟨4, 1, 4⟩, l2 := ⟨8, 1, 4⟩ }
  latencies := ⟨1, 1, 1⟩
  dram := ⟨1, 4, 1, 1, 1⟩

/-- A write that hits after its block has been fetched. -/
theorem someWriteHits_of_fetched {c : Config} {h₀ : Hierarchy} {b : Nat}
    (hbuild : ofConfig? c = .ok h₀) (hb : b < c.general.memoryBytes.toNat)
    (hhit : (do
        let r ← record perform h₀ [.access .data b, .tick, .tick, .tick, .tick]
        let written ← r.2.write b 7
        return written.1) = Except.ok Outcome.hit) : SomeWriteHits c := by
  obtain ⟨r, hrun, hhit⟩ := bind_eq_ok.mp hhit
  obtain ⟨⟨outcome, h'⟩, hwrite, hhit⟩ := bind_eq_ok.mp hhit
  obtain rfl : outcome = .hit := Except.ok.inj hhit
  have hrange : ∀ action ∈ [Action.access .data b, .tick, .tick, .tick, .tick],
      action.InRange c.general.memoryBytes.toNat := by
    refine List.forall_mem_cons.mpr ⟨?_, by simp [Action.InRange]⟩
    exact hb
  exact ⟨h₀, [], h₀, hbuild, rfl, _, hrange, r, hrun, b, 7, h', hb, hwrite⟩

/-- With machine words of eight bits, stores land in a memory of 256 bytes and do not all land in
one of 512. -/
theorem stores_land_eight_bits :
    (SomeWriteHits (eightBits 256) ∧ StoresLand (eightBits 256))
      ∧ SomeWriteHits (eightBits 512) ∧ ¬StoresLand (eightBits 512) := by
  have hsmall : SomeWriteHits (eightBits 256) :=
    someWriteHits_of_fetched (b := 128) rfl (by decide) (by decide +kernel)
  have hlarge : SomeWriteHits (eightBits 512) :=
    someWriteHits_of_fetched (b := 256) rfl (by decide) (by decide +kernel)
  refine ⟨⟨hsmall, (stores_land _).1 (by decide)⟩, hlarge, fun hland => ?_⟩
  have hle := (stores_land _).2 hlarge hland
  exact absurd hle (by decide)

end MemoryHierarchy.Hierarchy
