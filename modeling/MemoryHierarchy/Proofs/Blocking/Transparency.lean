import MemoryHierarchy.Proofs.Blocking.Accesses

/-!
A blocking cache cannot be told from its memory, except by the time it takes.

A `Machine` is a blocking cache with the memory behind it. Whatever is read and written, a read
gives the word last written to its address, or else the one that memory had in the beginning, and
only an access whose block was not in the cache takes time (`transparent`).
-/

namespace MemoryHierarchy.BlockingCache

open LineStore

/-- What comes of an access. -/
structure Answer where
  /-- Whether the block was in the cache before. -/
  wasHere : Bool
  served : Served
  deriving Repr, DecidableEq

/-- A blocking cache and the memory behind it. -/
structure Machine where
  cache : BlockingCache
  port : Port
  deriving Repr, DecidableEq

/-- The word that an access writes to position `j`. -/
def written? (g : Geometry) (j : Nat) : Access × Answer → Option Word
  | ({ address, operation := .write word }, _) =>
    if j = g.wordIndex address then some word else none
  | _ => none

/-- The word last written to position `j`. The latest access comes first. -/
def lastWritten? (g : Geometry) (j : Nat) (history : List (Access × Answer)) : Option Word :=
  history.findSome? (written? g j)

/-- The word at position `j` of a memory that takes every write at once. -/
def contentsAfter (g : Geometry) (memory : Memory) (history : List (Access × Answer)) (j : Nat) :
    Option Word :=
  (lastWritten? g j history).or memory.words[j]?

/-- What an access has to answer after those in `past`: a read the contents, a write its word;
either takes time only if its block was not in the cache. -/
structure Answered (g : Geometry) (memory : Memory) (missPenalty : Nat)
    (past : List (Access × Answer)) (access : Access) (answer : Answer) : Prop where
  read : access.operation = .read →
    contentsAfter g memory past (g.wordIndex access.address) = some answer.served.value
  write : ∀ word, access.operation = .write word → answer.served.value = word
  outcome : answer.served.outcome = if answer.wasHere then .hit else .miss
  latency : answer.served.latency = if answer.wasHere then 0 else missPenalty

namespace Machine

/-- Looks whether the block of an access is in the cache, then serves the access. -/
def perform (m : Machine) (access : Access) : Except Fault (Answer × Machine) := do
  let wasHere ← m.cache.contains access.address
  let (served, cache, port) ← m.cache.serve access m.port
  return ({ wasHere, served }, { cache, port })

/-- The word at position `j`, of the line that holds its block or else of memory. -/
def Shows (m : Machine) (j : Nat) (word? : Option Word) : Prop :=
  (∀ index way line,
      m.cache.store.CopyAt index way ⟨m.cache.store.geometry.home j, m.cache.kind⟩ line →
      line.words[j % m.cache.store.geometry.wordsPerLine]? = word?)
    ∧ (¬m.cache.store.Resident ⟨m.cache.store.geometry.home j, m.cache.kind⟩ →
      m.port.memory.words[j]? = word?)

/-- Every clean line has the words that memory has. -/
def CleanLinesMatch (m : Machine) : Prop :=
  ∀ index way line, m.cache.store.line? index way = some line → line.valid = true →
    line.dirty = false →
    m.port.memory.readBlock (m.cache.store.geometry.blockStart line.tag index)
        m.cache.store.geometry.wordsPerLine
      = .ok line.words

/-- The cache and its memory make up `contents`. -/
structure Backs (size : Nat) (contents : Nat → Word) (m : Machine) : Prop where
  onePath : m.cache.store.OnePath m.cache.kind
  coherent : ∃ sizes memories contents', m.port = memories.get m.cache.kind
    ∧ sizes m.cache.kind = size ∧ contents' m.cache.kind = contents
    ∧ Coherent sizes m.cache.store memories contents'

variable {m : Machine} {size : Nat} {contents : Nat → Word}

/-! ## What can be seen -/

theorem Backs.shows (h : m.Backs size contents) {j : Nat}
    (hlt : m.cache.store.geometry.home j < size) : m.Shows j (some (contents j)) := by
  obtain ⟨sizes, memories, contents', hport, rfl, rfl, hcoherent⟩ := h.coherent
  constructor
  · intro index way line hc
    exact hcoherent.words_eq hc rfl
  · intro hno
    rw [hport]
    apply hcoherent.stored hlt
    intro index way line hc
    exact absurd hc.resident hno

theorem Backs.clean_lines_match (h : m.Backs size contents) : m.CleanLinesMatch := by
  obtain ⟨sizes, memories, contents', hport, -, -, hcoherent⟩ := h.coherent
  intro index way line hl hvalid hclean
  have hc : m.cache.store.CopyAt index way
      ⟨m.cache.store.geometry.blockStart line.tag index, m.cache.kind⟩ line :=
    ⟨hl, hvalid, rfl, h.onePath _ _ _ hl⟩
  rw [hport]
  exact hcoherent.readBlock_eq hc hclean

/-- An empty cache leaves everything to its memory. -/
theorem empty_backs {g : Geometry} {port : Port} (hfits : port.Fits g) (kind : Kind)
    (missPenalty : Nat) :
    Backs port.memory.sizeBytes (fun j => port.memory.words[j]?.getD 0)
      ⟨empty g kind missPenalty, port⟩ := by
  have hboth : ∀ k, ((PerKind.both port).get k).Fits g := by
    intro k
    rw [PerKind.get_both]
    exact hfits
  have hempty := Coherent.empty kind hboth
  simp only [PerKind.get_both] at hempty
  exact ⟨empty_onePath g kind _, _, _, _, (PerKind.get_both port kind).symm, rfl, rfl, hempty⟩

/-! ## Accesses -/

/-- What an access does: it answers from the contents, and what it writes becomes contents. -/
theorem perform_spec (h : m.Backs size contents) (access : Access)
    (hlt : access.address % m.cache.store.geometry.span < size) :
    Ends (m.perform access) m.cache.store.Exhausted fun (answer, m') =>
      m'.Backs size (fun j =>
          (written? m.cache.store.geometry j (access, answer)).getD (contents j))
        ∧ m'.cache.kind = m.cache.kind ∧ m'.cache.missPenalty = m.cache.missPenalty
        ∧ m'.cache.store.geometry = m.cache.store.geometry
        ∧ m'.cache.store.clock = m.cache.store.clock + 1
        ∧ (access.operation = .read →
            answer.served.value = contents (m.cache.store.geometry.wordIndex access.address))
        ∧ (∀ word, access.operation = .write word → answer.served.value = word)
        ∧ answer.served.outcome = (if answer.wasHere then .hit else .miss)
        ∧ answer.served.latency = (if answer.wasHere then 0 else m.cache.missPenalty) := by
  obtain ⟨sizes, memories, contents', hport, rfl, rfl, hcoherent⟩ := h.coherent
  obtain ⟨wasHere, hcontains, hhere⟩ := contains_spec hcoherent.sound access.address m.cache.kind
  have hblock : (m.cache.store.geometry.locate access.address).block < sizes m.cache.kind :=
    Nat.lt_of_le_of_lt (Geometry.locate_block_le_self _) hlt
  rw [perform]
  apply Ends.bind_ok hcontains
  rw [hport]
  apply Ends.bind' (serve_coherent hcoherent h.onePath hblock)
  intro r hr
  obtain ⟨served, cache, port⟩ := r
  obtain ⟨⟨memories', hport', hcoherent'⟩, hvalue, houtcome, hlatency, way, new, htakes,
    hcache⟩ := hr
  dsimp only at hport' hcoherent' hvalue houtcome hlatency hcache
  subst hcache
  have hanswer : served.outcome = if wasHere then .hit else .miss := by
    rw [← hhere] at houtcome
    cases wasHere <;> cases hserved : served.outcome <;> simp_all
  obtain ⟨a, operation⟩ := access
  refine Ends.pure' ⟨⟨h.onePath.used htakes, sizes, memories', _, hport', rfl, ?_, hcoherent'⟩,
    rfl, rfl, rfl, rfl, ?_, ?_, hanswer, ?_⟩
  · funext j
    cases operation with
    | read => rfl
    | write word => simp [Operation.store_write, written?]
  · intro hread
    subst hread
    exact hvalue
  · intro word hwrite
    subst hwrite
    simpa [Operation.store] using hvalue
  · rw [hlatency, hanswer]
    cases wasHere <;> rfl

/-- What holds after the accesses in `past`, with `rest` still to come. -/
structure Holds (g : Geometry) (port : Port) (kind : Kind) (missPenalty total : Nat)
    (rest : List Access) (past : List (Access × Answer)) (m : Machine) : Prop where
  inside : ∀ access ∈ rest, access.address % g.span < port.memory.sizeBytes
  count : past.length + rest.length = total
  clock : m.cache.store.clock = past.length
  path : m.cache.kind = kind
  penalty : m.cache.missPenalty = missPenalty
  geometry : m.cache.store.geometry = g
  backs : m.Backs port.memory.sizeBytes fun j =>
    (lastWritten? g j past).getD (port.memory.words[j]?.getD 0)
  answered : Each (Answered g port.memory missPenalty) past

/-- The words that a memory of whole lines has at addresses of words. -/
theorem contentsAfter_eq {g : Geometry} {memory : Memory} {history : List (Access × Answer)}
    {j : Nat} (hj : j < memory.words.size) :
    contentsAfter g memory history j
      = some ((lastWritten? g j history).getD (memory.words[j]?.getD 0)) := by
  rw [contentsAfter, Array.getElem?_eq_getElem hj]
  cases lastWritten? g j history <;> rfl

/-- A word of memory is a word of a block inside memory, and the other way round. -/
theorem home_lt_iff {g : Geometry} {port : Port} (hfits : port.Fits g) {j : Nat} :
    g.home j < port.memory.sizeBytes ↔ j < port.memory.words.size := by
  have hword := g.home_word j
  have hmod := Nat.mod_lt j g.wordsPerLine_pos
  constructor
  · intro hlt
    have hin := Geometry.add_lineBytes_le (g.home_dvd j) hfits.wholeLines hlt
    have hrange := (hfits.range (g.home_dvd j) hin).2
    omega
  · intro hlt
    have hb := g.word.bytes_pos
    rw [Memory.sizeBytes, hfits.wordBytes]
    calc g.home j = g.home j / g.word.bytes * g.word.bytes :=
          (Nat.div_mul_cancel (Nat.dvd_trans g.bytes_dvd_lineBytes (g.home_dvd j))).symm
      _ ≤ j * g.word.bytes := Nat.mul_le_mul_right _ (by omega)
      _ < port.memory.words.size * g.word.bytes := Nat.mul_lt_mul_of_pos_right hlt hb

theorem Holds.perform {g : Geometry} {port : Port} {kind : Kind} {missPenalty total : Nat}
    {access : Access} {rest : List Access} {past : List (Access × Answer)}
    (hfits : port.Fits g) (h : Holds g port kind missPenalty total (access :: rest) past m) :
    Ends (m.perform access) (fun f => f = .overflow ∧ UInt64.size ≤ total) fun r =>
      Holds g port kind missPenalty total rest ((access, r.1) :: past) r.2 := by
  obtain ⟨hinside, hcount, hclock, rfl, rfl, rfl, hbacks, hanswered⟩ := h
  have hlt := hinside access List.mem_cons_self
  rw [List.length_cons] at hcount
  apply (perform_spec hbacks access hlt).mono
  · intro f hf
    obtain ⟨hoverflow, hfull⟩ := hf
    exact ⟨hoverflow, by omega⟩
  · intro r hr
    obtain ⟨answer, m'⟩ := r
    obtain ⟨hbacks', hkind, hpenalty, hgeometry, hclock', hread, hwrite, houtcome, hlatency⟩ := hr
    refine ⟨fun a ha => hinside a (List.mem_cons_of_mem _ ha), ?_, ?_, hkind, hpenalty, hgeometry,
      ?_, ⟨?_, hwrite, houtcome, hlatency⟩, hanswered⟩
    · rw [List.length_cons]
      omega
    · rw [hclock', hclock, List.length_cons]
    · simp only [lastWritten?, findSome?_cons_getD]
      exact hbacks'
    · intro hop
      have hhome : m.cache.store.geometry.home (m.cache.store.geometry.wordIndex access.address)
          < port.memory.sizeBytes := by
        rw [Geometry.home_wordIndex]
        exact Nat.lt_of_le_of_lt (Geometry.locate_block_le_self _) hlt
      rw [contentsAfter_eq ((home_lt_iff hfits).mp hhome), hread hop]

/-- **A blocking cache is transparent.** Whatever is read and written inside a memory of whole
lines, the accesses go through, unless they are more than the clock can count, and

* a read gives the word last written to its address, or the one that memory had in the beginning;
* an access costs the miss penalty if its block was not in the cache, and nothing otherwise;
* every word of the memory, looked up in the cache if its block is there and in memory otherwise,
  is the one last written or the one of the beginning;
* every clean line has the words that memory has. -/
theorem transparent (g : Geometry) (kind : Kind) (missPenalty : Nat) (port : Port)
    (hfits : port.Fits g) (accesses : List Access)
    (hinside : ∀ access ∈ accesses, access.address % g.span < port.memory.sizeBytes) :
    Ends (record perform ⟨empty g kind missPenalty, port⟩ accesses)
      (fun f => f = .overflow ∧ UInt64.size ≤ accesses.length) fun (history, m) =>
        Each (Answered g port.memory missPenalty) history
        ∧ (∀ j < port.memory.words.size, m.Shows j (contentsAfter g port.memory history j))
        ∧ m.CleanLinesMatch := by
  have hstart : Holds g port kind missPenalty accesses.length accesses []
      ⟨empty g kind missPenalty, port⟩ := by
    exact ⟨hinside, Nat.zero_add _, rfl, rfl, rfl, rfl, empty_backs hfits kind missPenalty, trivial⟩
  apply (Ends.record (Holds g port kind missPenalty accesses.length)
    (fun _ _ _ _ h => h.perform hfits) accesses [] _ hstart).weaken
  intro r hr
  obtain ⟨history, m⟩ := r
  obtain ⟨-, -, -, -, -, hgeometry, hbacks, hanswered⟩ := hr
  refine ⟨hanswered, ?_, hbacks.clean_lines_match⟩
  intro j hj
  rw [contentsAfter_eq hj]
  apply hbacks.shows
  rw [hgeometry]
  exact (home_lt_iff hfits).mpr hj

/-- One line of two bytes: the word written at address 1 is driven out to memory, and read back
at address 257, which a word of eight bits does not tell from 1. -/
theorem transparent_driven_out :
    ∃ (g : Geometry) (port : Port) (r : List (Access × Answer) × Machine),
      port.Fits g
        ∧ (∀ access ∈ [Access.mk 1 (.write 7), ⟨2, .read⟩, ⟨257, .read⟩],
          access.address % g.span < port.memory.sizeBytes)
        ∧ record perform ⟨empty g .data 10, port⟩ [⟨1, .write 7⟩, ⟨2, .read⟩, ⟨257, .read⟩] = .ok r
        ∧ r.1.map (·.2.served) = [⟨7, .miss, 10⟩, ⟨0, .miss, 10⟩, ⟨7, .miss, 10⟩]
        ∧ Each (Answered g port.memory 10) r.1
        ∧ (∀ j < port.memory.words.size, r.2.Shows j (contentsAfter g port.memory r.1 j))
        ∧ r.2.CleanLinesMatch := by
  have hfits : (Port.ofMemory (Memory.zeroed 4 1)).Fits
      ⟨.w8, 1, 0, 0, by decide, by decide, by decide⟩ := ⟨rfl, by decide⟩
  have hinside : ∀ access ∈ [Access.mk 1 (.write 7), ⟨2, .read⟩, ⟨257, .read⟩],
      access.address % Geometry.span ⟨.w8, 1, 0, 0, by decide, by decide, by decide⟩
        < (Port.ofMemory (Memory.zeroed 4 1)).memory.sizeBytes := by decide
  have hserved : (record perform
      ⟨empty ⟨.w8, 1, 0, 0, by decide, by decide, by decide⟩ .data 10,
        Port.ofMemory (Memory.zeroed 4 1)⟩
      [⟨1, .write 7⟩, ⟨2, .read⟩, ⟨257, .read⟩]).toOption.map (·.1.map (·.2.served))
      = some [⟨7, .miss, 10⟩, ⟨0, .miss, 10⟩, ⟨7, .miss, 10⟩] := by decide +kernel
  have hrun := transparent _ .data 10 _ hfits _ hinside
  obtain ⟨r, hr, hanswers, htransparent⟩ := hrun.evaluated hserved
  exact ⟨_, _, r, hfits, hinside, hr, hanswers, htransparent⟩

end Machine

end MemoryHierarchy.BlockingCache
