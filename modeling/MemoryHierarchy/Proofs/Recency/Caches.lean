import MemoryHierarchy.Proofs.Blocking.Transparency
import MemoryHierarchy.Proofs.L1.Residency
import MemoryHierarchy.Proofs.L2.Stores
import MemoryHierarchy.Proofs.Recency

/-!
All three caches give up the block that was used longest ago.

The caches differ in which calls use a block and which take one in: a look-up in an L1 refreshes
and an arrival there takes in, a probe of the L2 refreshes and an arrival there does both, and so
does any access to a blocking cache. `Usage` says this of a cache, one effect lemma for each of
them says that its calls do it (`perform_effect`), and one induction over runs gives that every
set is in the order of the reference list (`Usage.Keeps.run`).
-/

namespace MemoryHierarchy

open LineStore

/-- A call on the block of an address. -/
def Geometry.use (g : Geometry) (address : Nat) (kind : Kind) (refreshes admits : Bool) : Use :=
  { index := (g.locate address).index, tag := (g.locate address).tag, kind, refreshes, admits }

/-- A machine around a store, and what its calls mean for the order of use. -/
structure Usage (σ ι ο : Type) where
  step : σ → ι → Except Fault (ο × σ)
  store : σ → LineStore
  use : ι → Use
  /-- Whether the block was there, if the answer tells. -/
  found? : ο → Option Bool

namespace Usage

variable {σ ι ο κ : Type} [DecidableEq κ] {U : Usage σ ι ο} {key : Nat → Kind → κ} {g : Geometry}
  {n : Nat} {H : Prop}

/-- The reference list after a history, the latest call of which comes first. -/
def order (U : Usage σ ι ο) (key : Nat → Kind → κ) (g : Geometry) (past : List (ι × ο)) :
    UseOrder κ :=
  useOrder key g.ways (past.map fun e => U.use e.1)

/-- How often some calls use a block, by the reference list. -/
def touches (U : Usage σ ι ο) (key : Nat → Kind → κ) (g : Geometry) (calls : List ι) : Nat :=
  (useOrder key g.ways (calls.map U.use).reverse).uses

/-- An answer is right about whether the block was there, by the list of its set. -/
def Right (U : Usage σ ι ο) (key : Nat → Kind → κ) (g : Geometry) (past : List (ι × ο)) (call : ι)
    (answer : ο) : Prop :=
  ∀ found, U.found? answer = some found →
    (found = true ↔ key (U.use call).tag (U.use call).kind
      ∈ (U.order key g past).keys (U.use call).index)

/-- After a history every set is its reference list, and every answer was right about it. -/
structure LeastRecent (U : Usage σ ι ο) (key : Nat → Kind → κ) (g : Geometry)
    (r : List (ι × ο) × σ) : Prop where
  sets : ∀ i < g.sets, ∃ lines, (U.store r.2).sets[i]? = some lines ∧ lines.length = g.ways
    ∧ Listed key lines ((U.order key g r.1).keys i)
  answers : Each (U.Right key g) r.1

/-- Calls do to the store what they mean, as long as `I` holds, which may speak of the calls still
to come. Under `H` only the clock can stop them. -/
structure Keeps (U : Usage σ ι ο) (key : Nat → Kind → κ) (g : Geometry) (n : Nat) (H : Prop)
    (I : List ι → σ → Prop) : Prop where
  index_lt : ∀ i, (U.use i).index < g.sets
  shaped : ∀ rest s, I rest s → (U.store s).Shaped n
  geometry : ∀ rest s, I rest s → (U.store s).geometry = g
  tells : ∀ i rest s, I (i :: rest) s → (U.store s).Tells key (U.use i)
  effect : ∀ i rest s, I (i :: rest) s →
    Ends (U.step s i) (fun f => (U.store s).Uses (U.use i) ∧ (H → (U.store s).Exhausted f))
      fun r => I rest r.2 ∧ ∃ found, (U.store s).Effect (U.use i) found (U.store r.2)
        ∧ ∀ b, U.found? r.1 = some b → b = found

/-- What a run keeps, with `rest` still to come. -/
structure Followed (U : Usage σ ι ο) (key : Nat → Kind → κ) (g : Geometry)
    (I : List ι → σ → Prop) (calls rest : List ι) (past : List (ι × ο)) (s : σ) : Prop where
  inv : I rest s
  calls : (rest.map U.use).reverse ++ past.map (fun e => U.use e.1) = (calls.map U.use).reverse
  follows : (U.store s).Follows key (U.order key g past)
  answers : Each (U.Right key g) past

theorem Followed.step {I : List ι → σ → Prop} (hU : U.Keeps key g n H I) {calls rest : List ι}
    {past : List (ι × ο)} {s : σ} {i : ι} (h : U.Followed key g I calls (i :: rest) past s) :
    Ends (U.step s i) (fun f => H → f = .overflow ∧ UInt64.size ≤ U.touches key g calls) fun r =>
      U.Followed key g I calls rest ((i, r.1) :: past) r.2 := by
  have hs := hU.shaped _ _ h.inv
  have hgeometry := hU.geometry _ _ h.inv
  have hi : (U.use i).index < (U.store s).geometry.sets := by
    rw [hgeometry]
    exact hU.index_lt i
  have htells := hU.tells _ _ _ h.inv
  apply (hU.effect i rest s h.inv).mono
  · -- The call would have been one use more than the clock can count.
    intro f hf hH
    obtain ⟨hoverflow, hfull⟩ := hf.2 hH
    have hcount : (useOrder key g.ways (U.use i :: past.map fun e => U.use e.1)).uses
        = (U.store s).clock + 1 := h.follows.after_uses hs hi htells hf.1 g.ways
    have hle := useOrder_uses_le key g.ways (rest.map U.use).reverse
      (U.use i :: past.map fun e => U.use e.1)
    have hcalls := h.calls
    rw [List.map_cons, List.reverse_cons, List.append_assoc, List.singleton_append] at hcalls
    rw [hcount, hcalls] at hle
    exact ⟨hoverflow, Nat.le_trans hfull hle⟩
  · intro r hr
    obtain ⟨hinv, found, heffect, hfound⟩ := hr
    refine ⟨hinv, ?_, ?_, ?_, h.answers⟩
    · rw [← h.calls]
      simp
    · have hfollows := h.follows.effect hs hi htells heffect
      rw [hgeometry] at hfollows
      exact hfollows
    · intro b hb
      rw [hfound b hb, heffect.found_iff, h.follows.mem_keys_iff hs hi htells]

theorem Keeps.followed {I : List ι → σ → Prop} (hU : U.Keeps key g n H I) {s : σ} {calls : List ι}
    (hinv : I calls s) (hstart : (U.store s).Follows key (useOrder key g.ways [])) :
    Ends (record U.step s calls)
      (fun f => H → f = .overflow ∧ UInt64.size ≤ U.touches key g calls)
      fun r => U.Followed key g I calls [] r.1 r.2 := by
  have hfollowed : U.Followed key g I calls calls [] s :=
    ⟨hinv, List.append_nil _, hstart, trivial⟩
  exact Ends.record (U.Followed key g I calls) (fun _ _ _ _ h => h.step hU) calls [] s hfollowed

theorem Keeps.run {I : List ι → σ → Prop} (hU : U.Keeps key g n H I) {s : σ} {calls : List ι}
    (hinv : I calls s) (hstart : (U.store s).Follows key (useOrder key g.ways [])) :
    Ends (record U.step s calls)
      (fun f => H → f = .overflow ∧ UInt64.size ≤ U.touches key g calls)
      (U.LeastRecent key g) := by
  apply (hU.followed hinv hstart).weaken
  intro r hr
  refine ⟨?_, hr.answers⟩
  intro i hi
  have hgeometry := hU.geometry _ _ hr.inv
  rw [← hgeometry] at hi
  obtain ⟨lines, hget, hlen, -⟩ := set_eq (hU.shaped _ _ hr.inv) hi
  rw [hgeometry] at hlen
  exact ⟨lines, hget, hlen, hr.follows.listed hget⟩

end Usage

/-! ## The L1 -/

namespace L1

/-- What is asked of an L1. -/
inductive Call where
  | access (address : Nat)
  | insert (address : Nat)
  deriving Repr, DecidableEq

/-- What it answers. -/
inductive Answer where
  | looked (lookup : Lookup)
  | inserted (taken : Bool)
  deriving Repr, DecidableEq

/-- Does what is asked. -/
def perform (c : L1) : Call → Except Fault (Answer × L1)
  | .access address => do
    let (lookup, c) ← c.access address
    return (.looked lookup, c)
  | .insert address => do
    let (taken, c) ← c.insert address
    return (.inserted taken, c)

/-- A look-up refreshes a block, an arrival takes one in. -/
def usage (g : Geometry) (kind : Kind) : Usage L1 Call Answer where
  step := perform
  store := store
  use
    | .access address => g.use address kind true false
    | .insert address => g.use address kind false true
  found?
    | .looked lookup => some (lookup.outcome == .hit)
    | .inserted taken => some !taken

theorem usage_kind (g : Geometry) (kind : Kind) (call : Call) :
    ((usage g kind).use call).kind = kind := by
  cases call <;> rfl

variable {c : L1}

theorem access_effect (hs : c.store.Shaped 0) (a : Nat) :
    Ends (c.access a)
      (fun f => c.store.Uses (c.store.geometry.use a c.kind true false) ∧ c.store.Exhausted f)
      fun r => r.2.kind = c.kind
        ∧ c.store.Effect (c.store.geometry.use a c.kind true false) (r.1.outcome == .hit)
          r.2.store := by
  rw [access]
  rcases find_spec hs (Geometry.locate_index_lt a) (c.store.geometry.locate a).tag c.kind with
    ⟨way, line, hfind, hl, hholds⟩ | ⟨hfind, hno⟩
  · have huses : c.store.Uses (c.store.geometry.use a c.kind true false) :=
      uses_of_has ⟨way, line, hl, hholds⟩ rfl
    apply Ends.bind_ok hfind
    apply Ends.bind' ((touch_spec hs hl).faults fun _ hf => ⟨huses, hf⟩)
    intro store hstore
    subst hstore
    exact Ends.pure' ⟨rfl, .used true way line (Takes.of_holds hl hholds hholds rfl) huses⟩
  · apply Ends.bind_ok hfind
    exact Ends.pure' ⟨rfl, .missed (not_has_iff.mpr hno) rfl⟩

theorem insert_effect (hs : c.store.Shaped 0) (a : Nat) :
    Ends (c.insert a)
      (fun f => c.store.Uses (c.store.geometry.use a c.kind false true) ∧ c.store.Exhausted f)
      fun r => r.2.kind = c.kind
        ∧ c.store.Effect (c.store.geometry.use a c.kind false true) (!r.1) r.2.store := by
  have hi : (c.store.geometry.locate a).index < c.store.geometry.sets := Geometry.locate_index_lt a
  rw [insert]
  rcases find_spec hs hi (c.store.geometry.locate a).tag c.kind with
    ⟨way, line, hfind, hl, hholds⟩ | ⟨hfind, hno⟩
  · apply Ends.bind_ok hfind
    exact Ends.pure' ⟨rfl, .left ⟨way, line, hl, hholds⟩ rfl⟩
  · have huses : c.store.Uses (c.store.geometry.use a c.kind false true) :=
      uses_of_not_has (not_has_iff.mpr hno) rfl
    obtain ⟨way, old, hvictim, hl⟩ := victim_spec hs hi
    apply Ends.bind_ok hfind
    apply Ends.bind_ok hvictim
    apply Ends.bind' ((install_spec hs hl _ _).faults fun _ hf => ⟨huses, hf⟩)
    intro store hstore
    subst hstore
    refine Ends.pure' ⟨rfl, .used false way _ ?_ huses⟩
    exact Takes.of_victim hl hvictim hno (Line.holds_claim _ _ _ _) rfl

theorem perform_effect (hs : c.store.Shaped 0) (call : Call) :
    Ends (c.perform call)
      (fun f => c.store.Uses ((usage c.store.geometry c.kind).use call) ∧ c.store.Exhausted f)
      fun r => r.2.kind = c.kind ∧ ∃ found,
        c.store.Effect ((usage c.store.geometry c.kind).use call) found r.2.store
          ∧ ∀ b, (usage c.store.geometry c.kind).found? r.1 = some b → b = found := by
  cases call with
  | access a =>
    apply Ends.bind' (access_effect hs a)
    intro r hr
    exact Ends.pure' ⟨hr.1, _, hr.2, fun b hb => (Option.some.inj hb).symm⟩
  | insert a =>
    apply Ends.bind' (insert_effect hs a)
    intro r hr
    exact Ends.pure' ⟨hr.1, _, hr.2, fun b hb => (Option.some.inj hb).symm⟩

/-- The keys of an L1 are its tags. -/
theorem usage_keeps (g : Geometry) (kind : Kind) :
    (usage g kind).Keeps (fun tag _ => tag) g 0 True fun _ c =>
      c.store.Shaped 0 ∧ c.store.geometry = g ∧ c.kind = kind ∧ c.store.OnePath kind where
  index_lt call := by cases call <;> exact Geometry.locate_index_lt _
  shaped _ _ h := h.1
  geometry _ _ h := h.2.1
  tells call _ _ h := h.2.2.2.tells (usage_kind g kind call)
  effect call rest c h := by
    obtain ⟨hs, rfl, rfl, hp⟩ := h
    apply (perform_effect hs call).mono
    · exact fun f hf => ⟨hf.1, fun _ => hf.2⟩
    · intro r hr
      obtain ⟨hkind, found, heffect, hfound⟩ := hr
      exact ⟨⟨heffect.shaped hs, heffect.geometry, hkind, heffect.onePath (usage_kind _ _ _) hp⟩,
        found, heffect, hfound⟩

end L1

/-! ## The L2 -/

namespace L2

variable {c : L2} {m : Machine}

/-- A probe refreshes a block, an arrival takes one in or refreshes it, a cancellation does
neither. -/
def usage (g : Geometry) : Usage Machine Call Answer where
  step := Machine.perform
  store m := m.cache.store
  use
    | .probe p => g.use p.address p.kind true false
    | .fill block => g.use block.address block.kind true true
    | .cancel address kind => g.use address kind false false
  found?
    | .probed response => some (response.outcome == .hit)
    | .filled _ _ => none
    | .cancelled _ => none

theorem probe_effect (hs : c.store.Shaped c.store.geometry.wordsPerLine) (p : Probe)
    (ic : Interconnect) :
    Ends (c.probe p ic) (fun _ => c.store.Uses (c.store.geometry.use p.address p.kind true false))
      fun r => c.store.Effect (c.store.geometry.use p.address p.kind true false)
        (r.response.outcome == .hit) r.cache.store := by
  rw [probe]
  rcases find_spec hs (Geometry.locate_index_lt p.address)
    (c.store.geometry.locate p.address).tag p.kind with
    ⟨way, line, hfind, hl, hholds⟩ | ⟨hfind, hno⟩
  · have huses : c.store.Uses (c.store.geometry.use p.address p.kind true false) :=
      uses_of_has ⟨way, line, hl, hholds⟩ rfl
    apply Ends.bind_ok hfind
    cases hprobe : c.probeHit p way ic with
    | error f => exact Ends.error hprobe huses
    | ok r =>
      -- The probe went through, so its line could be stamped.
      obtain ⟨store, hstore, -⟩ := bind_eq_ok.mp hprobe
      obtain rfl := (touch_spec hs hl).of_ok hstore
      refine Ends.ok (probeHit_eq hs p hl hstore ic) (.used true way _ ?_ huses)
      exact Takes.of_holds hl hholds ((Operation.perform_holds _ _ _ _ _).trans hholds)
        (Operation.length_perform _ _ _)
  · apply Ends.bind_ok hfind
    obtain ⟨disposition, hresponse⟩ := probeMiss_response c p ic
    apply Ends.pure'
    rw [hresponse, probeMiss_store]
    exact .missed (not_has_iff.mpr hno) rfl

theorem fill_effect (hs : c.store.Shaped c.store.geometry.wordsPerLine) (block : BlockRef)
    (ic : Interconnect) (memories : PerKind Port) :
    Ends (c.fill block ic memories) (fun _ => True) fun r => ∃ found,
      c.store.Effect (c.store.geometry.use block.address block.kind true true) found
        r.cache.store := by
  have hi : (c.store.geometry.locate block.address).index < c.store.geometry.sets :=
    Geometry.locate_index_lt _
  have huses : c.store.Uses (c.store.geometry.use block.address block.kind true true) :=
    ⟨fun _ => rfl, fun _ => rfl⟩
  rw [fill]
  rcases find_spec hs hi (c.store.geometry.locate block.address).tag block.kind with
    ⟨way, line, hfind, hl, hholds⟩ | ⟨hfind, hno⟩
  · apply Ends.bind_ok hfind
    apply Ends.bind' ((touch_spec hs hl).faults fun _ _ => trivial)
    intro store hstore
    subst hstore
    exact Ends.pure' ⟨true, .used true way line (Takes.of_holds hl hholds hholds rfl) huses⟩
  · apply Ends.bind_ok hfind
    apply Ends.bind' (replace_takes hs hi block.kind hno)
    intro r hr
    obtain ⟨way, new, htakes, hstore⟩ := hr
    apply Ends.pure'
    dsimp only
    rw [hstore]
    exact ⟨false, .used false way new htakes huses⟩

theorem perform_effect (hs : m.cache.store.Shaped m.cache.store.geometry.wordsPerLine)
    (call : Call) :
    Ends (m.perform call)
      (fun _ => m.cache.store.Uses ((usage m.cache.store.geometry).use call))
      fun r => ∃ found,
        m.cache.store.Effect ((usage m.cache.store.geometry).use call) found r.2.cache.store
          ∧ ∀ b, (usage m.cache.store.geometry).found? r.1 = some b → b = found := by
  cases call with
  | probe p =>
    apply Ends.bind' (probe_effect hs p m.interconnect)
    intro r heffect
    exact Ends.pure' ⟨_, heffect, fun b hb => (Option.some.inj hb).symm⟩
  | fill block =>
    apply Ends.bind' ((fill_effect hs block m.interconnect m.memories).faults
      fun _ _ => ⟨fun _ => rfl, fun _ => rfl⟩)
    intro r hr
    obtain ⟨found, heffect⟩ := hr
    exact Ends.pure' ⟨found, heffect, fun b hb => by cases hb⟩
  | cancel address kind =>
    by_cases hhas : m.cache.store.Has ((usage m.cache.store.geometry).use (.cancel address kind))
    · exact ⟨true, .left hhas rfl, fun b hb => by cases hb⟩
    · exact ⟨false, .missed hhas rfl, fun b hb => by cases hb⟩

/-- The keys of an L2 are tags with their paths. Only the clock can stop it if memory consists of
whole lines and what arrives lies inside. -/
theorem usage_keeps (g : Geometry) (memories : PerKind Port) (H : Prop) :
    (usage g).Keeps Prod.mk g g.wordsPerLine H fun rest m =>
      m.cache.store.Shaped g.wordsPerLine ∧ m.cache.store.geometry = g
        ∧ (H → (∀ call ∈ rest, Machine.Admissible memories g call)
          ∧ ∃ contents, Coherent (fun kind => (memories.get kind).memory.sizeBytes) m.cache.store
            m.memories contents) where
  index_lt call := by cases call <;> exact Geometry.locate_index_lt _
  shaped _ _ h := h.1
  geometry _ _ h := h.2.1
  tells _ _ _ _ := fun _ _ _ hkey => Prod.mk.inj hkey
  effect call rest m h := by
    obtain ⟨hs, rfl, hcoherent⟩ := h
    have hspec : H → Ends (m.perform call) m.cache.store.Exhausted fun r => ∃ contents,
        Coherent (fun kind => (memories.get kind).memory.sizeBytes) r.2.cache.store r.2.memories
          contents := by
      intro hH
      obtain ⟨hadmissible, contents, hcoh⟩ := hcoherent hH
      have hinside : ∀ block, call = .fill block →
          block.address % m.cache.store.geometry.span
            < (memories.get block.kind).memory.sizeBytes := by
        intro block hblock
        subst hblock
        exact hadmissible _ List.mem_cons_self
      exact (Machine.perform_spec hcoh call hinside).weaken fun r hr => ⟨_, hr.1⟩
    apply ((perform_effect hs call).provided hspec).weaken
    intro r hr
    obtain ⟨⟨found, heffect, hfound⟩, hafter⟩ := hr
    refine ⟨⟨heffect.shaped hs, heffect.geometry, ?_⟩, found, heffect, hfound⟩
    intro hH
    exact ⟨fun call hmem => (hcoherent hH).1 call (List.mem_cons_of_mem _ hmem), hafter hH⟩

end L2

/-! ## The blocking cache -/

namespace BlockingCache

variable {m : Machine}

/-- An access refreshes a block or takes it in. -/
def usage (g : Geometry) (kind : Kind) : Usage Machine Access Answer where
  step := Machine.perform
  store m := m.cache.store
  use access := g.use access.address kind true true
  found? answer := some (answer.served.outcome == .hit)

theorem perform_effect (hs : m.cache.store.Shaped m.cache.store.geometry.wordsPerLine)
    (hp : m.cache.store.OnePath m.cache.kind) (access : Access) :
    Ends (m.perform access)
      (fun _ => m.cache.store.Uses
        ((usage m.cache.store.geometry m.cache.kind).use access))
      fun r => r.2.cache.kind = m.cache.kind
        ∧ m.cache.store.Effect ((usage m.cache.store.geometry m.cache.kind).use access)
          (r.1.served.outcome == .hit) r.2.cache.store := by
  have huses : m.cache.store.Uses ((usage m.cache.store.geometry m.cache.kind).use access) :=
    ⟨fun _ => rfl, fun _ => rfl⟩
  obtain ⟨wasHere, hcontains, -⟩ := contains_iff_holds hs access.address m.cache.kind
  rw [Machine.perform]
  apply Ends.bind_ok hcontains
  apply Ends.bind' ((serve_takes hs hp access m.port).faults fun _ _ => huses)
  intro r hr
  obtain ⟨served, cache, port⟩ := r
  obtain ⟨way, new, htakes, rfl⟩ := hr
  exact Ends.pure' ⟨rfl, .used _ way new htakes huses⟩

/-- The keys of a blocking cache are its tags. Only the clock can stop it if memory consists of
whole lines and all accesses lie inside. -/
theorem usage_keeps (g : Geometry) (kind : Kind) (size : Nat) (H : Prop) :
    (usage g kind).Keeps (fun tag _ => tag) g g.wordsPerLine H fun rest m =>
      m.cache.store.Shaped g.wordsPerLine ∧ m.cache.store.geometry = g ∧ m.cache.kind = kind
        ∧ m.cache.store.OnePath kind
        ∧ (H → (∀ access ∈ rest, access.address % g.span < size)
          ∧ ∃ contents, m.Backs size contents) where
  index_lt _ := Geometry.locate_index_lt _
  shaped _ _ h := h.1
  geometry _ _ h := h.2.1
  tells _ _ _ h := h.2.2.2.1.tells rfl
  effect access rest m h := by
    obtain ⟨hs, rfl, rfl, hp, hbacked⟩ := h
    have hspec : H → Ends (m.perform access) m.cache.store.Exhausted fun r => ∃ contents,
        r.2.Backs size contents := by
      intro hH
      obtain ⟨hinside, contents, hbacks⟩ := hbacked hH
      apply (Machine.perform_spec hbacks access (hinside _ List.mem_cons_self)).weaken
      exact fun r hr => ⟨_, hr.1⟩
    apply ((perform_effect hs hp access).provided hspec).weaken
    intro r hr
    obtain ⟨⟨hkind, heffect⟩, hafter⟩ := hr
    refine ⟨⟨heffect.shaped hs, heffect.geometry, hkind, heffect.onePath rfl hp, ?_⟩, _, heffect,
      fun b hb => (Option.some.inj hb).symm⟩
    intro hH
    exact ⟨fun a hmem => (hbacked hH).1 a (List.mem_cons_of_mem _ hmem), hafter hH⟩

end BlockingCache

/-- **Least recently used.** In all three caches every set, listed by its stamps, is the reference
list: a use moves its block to the end, a block that is taken in is appended, and of a full set
the first one leaves. An answer says hit exactly if the block is in the list. The blocks of an L1
and of a blocking cache are told apart by their tags, those of an L2 by tags and paths. The calls
go through unless there are more uses than the clock can count, or memory is asked for what it does
not have. -/
theorem sets_in_order_of_use (g : Geometry) :
    (∀ kind calls, Ends (record L1.perform (L1.empty g kind) calls)
        (fun f => f = .overflow
          ∧ UInt64.size ≤ (L1.usage g kind).touches (fun tag _ => tag) g calls)
        ((L1.usage g kind).LeastRecent (fun tag _ => tag) g))
    ∧ (∀ missSlots ic memories calls,
        Ends (record L2.Machine.perform ⟨L2.empty g missSlots, ic, memories⟩ calls)
          (fun f => (∀ kind, (memories.get kind).Fits g)
              ∧ (∀ call ∈ calls, L2.Machine.Admissible memories g call) →
            f = .overflow ∧ UInt64.size ≤ (L2.usage g).touches Prod.mk g calls)
          ((L2.usage g).LeastRecent Prod.mk g))
    ∧ ∀ kind missPenalty port accesses,
        Ends (record BlockingCache.Machine.perform
            ⟨BlockingCache.empty g kind missPenalty, port⟩ accesses)
          (fun f => port.Fits g
              ∧ (∀ access ∈ accesses, access.address % g.span < port.memory.sizeBytes) →
            f = .overflow
              ∧ UInt64.size ≤ (BlockingCache.usage g kind).touches (fun tag _ => tag) g accesses)
          ((BlockingCache.usage g kind).LeastRecent (fun tag _ => tag) g) := by
  refine ⟨?_, ?_, ?_⟩
  · intro kind calls
    have hrun : Ends (record L1.perform (L1.empty g kind) calls) _ _ :=
      (L1.usage_keeps g kind).run ⟨empty_shaped g kind 0, rfl, rfl, empty_onePath g kind 0⟩
        (empty_follows g kind 0 _)
    exact hrun.faults fun f hf => hf trivial
  · intro missSlots ic memories calls
    apply (L2.usage_keeps g memories _).run _ (empty_follows g .data _ _)
    refine ⟨empty_shaped g .data _, rfl, ?_⟩
    intro hH
    exact ⟨hH.2, _, Coherent.empty .data hH.1⟩
  · intro kind missPenalty port accesses
    apply (BlockingCache.usage_keeps g kind port.memory.sizeBytes _).run _
      (empty_follows g kind _ _)
    refine ⟨empty_shaped g kind _, rfl, rfl, empty_onePath g kind _, ?_⟩
    intro hH
    exact ⟨hH.2, _, BlockingCache.Machine.empty_backs hH.1 kind missPenalty⟩

/-- An L2 of one set with two ways: the probe makes the block of the other path the one to leave. -/
theorem sets_in_order_of_use_probed :
    ∃ (g : Geometry) (r : List (L2.Call × L2.Answer) × L2.Machine),
      record L2.Machine.perform
          ⟨L2.empty g 1, Interconnect.empty ⟨1, 1, 1⟩,
            PerKind.both (Port.ofMemory (Memory.zeroed 4 1))⟩
          [.fill ⟨0, .data⟩, .fill ⟨0, .instruction⟩, .probe ⟨0, .data, .read⟩, .fill ⟨1, .data⟩]
        = .ok r
      ∧ ((L2.usage g).order Prod.mk g r.1).keys 0 = [(0, .data), (1, .data)]
      ∧ (L2.usage g).LeastRecent Prod.mk g r := by
  have hkeys : (record L2.Machine.perform
      ⟨L2.empty ⟨.w8, 0, 0, 1, by decide, by decide, by decide⟩ 1, Interconnect.empty ⟨1, 1, 1⟩,
        PerKind.both (Port.ofMemory (Memory.zeroed 4 1))⟩
      [.fill ⟨0, .data⟩, .fill ⟨0, .instruction⟩, .probe ⟨0, .data, .read⟩,
        .fill ⟨1, .data⟩]).toOption.map (fun r =>
          ((L2.usage ⟨.w8, 0, 0, 1, by decide, by decide, by decide⟩).order Prod.mk
            ⟨.w8, 0, 0, 1, by decide, by decide, by decide⟩ r.1).keys 0)
      = some [(0, .data), (1, .data)] := by decide +kernel
  have hrun := (sets_in_order_of_use ⟨.w8, 0, 0, 1, by decide, by decide, by decide⟩).2.1 1
    (Interconnect.empty ⟨1, 1, 1⟩) (PerKind.both (Port.ofMemory (Memory.zeroed 4 1)))
    [.fill ⟨0, .data⟩, .fill ⟨0, .instruction⟩, .probe ⟨0, .data, .read⟩, .fill ⟨1, .data⟩]
  obtain ⟨r, hr, horder, hrecent⟩ := hrun.evaluated hkeys
  exact ⟨_, r, hr, horder, hrecent⟩

end MemoryHierarchy
