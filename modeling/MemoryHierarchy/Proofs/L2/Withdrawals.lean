import MemoryHierarchy.Proofs.Outstanding
import MemoryHierarchy.Proofs.Recency.Caches

/-!
Misses that are withdrawn and asked for again.

The history of an L2 tells which blocks are outstanding (`awaited`) and whether the requester of
a block has withdrawn (`withdrawn`). `Tracked` is the invariant: the miss table has the awaited
blocks, none of them is here, and each slot notes what the history says of its block. From it
every answer and every message follows (`Foretold`).
-/

namespace MemoryHierarchy

open LineStore

/-! ## What a call leaves in a store -/

namespace LineStore

variable {s s' : LineStore} {u v : Use} {found : Bool} {n : Nat}

/-- What is in a store was there before, or is what the call takes in. -/
theorem Effect.has_only (h : s.Effect u found s') (hv : s'.Has v) :
    s.Has v ∨ u.admits = true ∧ v.index = u.index ∧ v.tag = u.tag ∧ v.kind = u.kind := by
  cases h with
  | kept => exact .inl hv
  | used way new htakes huses =>
    obtain ⟨w, line, hl, hholds⟩ := hv
    obtain ⟨old, hold⟩ := htakes.exists_old
    rw [line?_used hold] at hl
    split at hl
    · next hplace =>
      -- the line that was used, which holds the block of the call
      obtain ⟨hindex, rfl⟩ := hplace
      obtain rfl := Option.some.inj hl
      obtain ⟨-, htag, hkind⟩ := holds_iff.mp hholds
      obtain ⟨-, hutag, hukind⟩ := holds_iff.mp htakes.holds
      have hsame : v.tag = u.tag ∧ v.kind = u.kind :=
        ⟨htag.symm.trans hutag, hkind.symm.trans hukind⟩
      by_cases hhas : s.Has u
      · left
        obtain ⟨w, line, hl, hheld⟩ := hhas
        exact ⟨w, line, hindex ▸ hl, by rw [hsame.1, hsame.2]; exact hheld⟩
      · exact .inr ⟨huses.2 hhas, hindex, hsame⟩
    · exact .inl ⟨w, line, hl, hholds⟩

theorem contains_has (hs : s.Shaped n) (a : Nat) (kind : Kind) :
    ∃ here, s.contains a kind = .ok here
      ∧ (here = true ↔ s.Has (s.geometry.use a kind true true)) :=
  contains_iff_holds hs a kind

end LineStore

namespace L2

/-! ## What the history tells -/

/-- The block that a call is about. -/
def Call.block (g : Geometry) : Call → BlockRef
  | .probe p => ⟨(g.locate p.address).block, p.kind⟩
  | .fill b => ⟨(g.locate b.address).block, b.kind⟩
  | .cancel address kind => ⟨(g.locate address).block, kind⟩

/-- The outstanding blocks: a probe was answered that memory is asked for them, and they have not
arrived since. The latest call comes first. -/
def awaited (g : Geometry) : List (Call × Answer) → List BlockRef
  | [] => []
  | (.probe p, .probed (.miss .issued)) :: past => (Call.probe p).block g :: awaited g past
  | (.fill b, _) :: past => (awaited g past).filter (· ≠ (Call.fill b).block g)
  | _ :: past => awaited g past

/-- What a call says about whether the requester of a block has withdrawn. -/
def withdraws? (g : Geometry) (b : BlockRef) : Call → Option Bool
  | .probe p => if (Call.probe p).block g = b then some false else none
  | .cancel address kind => if (Call.cancel address kind).block g = b then some true else none
  | .fill _ => none

/-- Whether the last one of the probes and cancellations of a block was a cancellation. -/
def withdrawn (g : Geometry) (b : BlockRef) (history : List (Call × Answer)) : Bool :=
  (history.findSome? fun entry => withdraws? g b entry.1).getD false

/-- What becomes of a probe that misses. -/
def disposition (g : Geometry) (missSlots : Nat) (history : List (Call × Answer))
    (b : BlockRef) : Disposition :=
  if b ∈ awaited g history then .outstanding
  else if (awaited g history).length < missSlots then .issued
  else .stalled

/-- Whether an arrival is announced. -/
def announces (g : Geometry) (history : List (Call × Answer)) (b : BlockRef) : Bool :=
  !(decide (b ∈ awaited g history) && withdrawn g b history)

/-- What one more call answers and does after a history. -/
def Foretold (g : Geometry) (missSlots : Nat) (history : List (Call × Answer)) (m : Machine)
    (call : Call) (answer : Answer) (m' : Machine) : Prop :=
  match call with
  | .probe p =>
    m.cache.contains p.address p.kind = .ok true ∧ answer = .probed .hit
      ∨ m.cache.contains p.address p.kind = .ok false
        ∧ answer = .probed (.miss (disposition g missSlots history (call.block g)))
        ∧ (answer = .probed (.miss .stalled) → m' = m)
  | .fill b =>
    (∃ wroteBack?, answer = .filled wroteBack? (announces g history (call.block g)))
      ∧ m'.interconnect = if announces g history (call.block g)
          then m.interconnect.sendOn b .l2ToL1 else m.interconnect
  | .cancel _ _ => answer = .cancelled (call.block g ∈ awaited g history)

variable {g : Geometry} {missSlots : Nat} {history : List (Call × Answer)} {m : Machine}
  {c : L2} {b : BlockRef} {call : Call}

theorem withdrawn_cons (call : Call) (answer : Answer) (past : List (Call × Answer)) :
    withdrawn g b ((call, answer) :: past) = (withdraws? g b call).getD (withdrawn g b past) :=
  findSome?_cons_getD _ _ _ _

theorem withdraws?_of_ne (h : b ≠ call.block g) : withdraws? g b call = none := by
  cases call with
  | probe | cancel => exact if_neg h.symm
  | fill => rfl

/-- What is absent stays so, unless it arrives. -/
theorem absent_of_effect {s s' : LineStore} {found : Bool}
    (he : s.Effect ((usage g).use call) found s') {a : Nat} {kind : Kind}
    (habsent : ¬s.Has (g.use a kind true true))
    (hne : ∀ b, call = .fill b → (⟨(g.locate a).block, kind⟩ : BlockRef) ≠ call.block g) :
    ¬s'.Has (g.use a kind true true) := by
  intro hhas
  rcases he.has_only hhas with hbefore | ⟨hadmits, hindex, htag, hkind⟩
  · exact habsent hbefore
  · cases call with
    | probe p => cases hadmits
    | cancel address kind => cases hadmits
    | fill b =>
      apply hne b rfl
      have hblock : (g.locate a).block = (g.locate b.address).block :=
        (Geometry.locate_eq_iff (Geometry.locate_tag_lt _) (Geometry.locate_index_lt _)).mpr
          ⟨htag, hindex⟩
      exact congrArg₂ BlockRef.mk hblock hkind

/-! ## The invariant -/

/-- The miss table against the history. -/
structure Tracked (g : Geometry) (missSlots : Nat) (history : List (Call × Answer)) (c : L2) :
    Prop where
  shaped : c.store.Shaped g.wordsPerLine
  geometry : c.store.geometry = g
  capacity : c.misses.capacity = missSlots
  blocks : c.misses.blocks.Perm (awaited g history)
  nodup : (awaited g history).Nodup
  absent : ∀ a kind, ⟨(g.locate a).block, kind⟩ ∈ awaited g history →
    ¬c.store.Has (g.use a kind true true)
  noted : ∀ b ∈ awaited g history, c.misses.withdrawn b = withdrawn g b history

namespace Tracked

theorem store_shaped (h : Tracked g missSlots history c) :
    c.store.Shaped c.store.geometry.wordsPerLine := by
  rw [h.geometry]
  exact h.shaped

theorem blockOf_eq (h : Tracked g missSlots history c) (a : Nat) (kind : Kind) :
    c.blockOf a kind = ⟨(g.locate a).block, kind⟩ := by
  rw [blockOf, h.geometry]

theorem contains_iff (h : Tracked g missSlots history c) (b : BlockRef) :
    c.misses.contains b = decide (b ∈ awaited g history) := by
  rw [Bool.eq_iff_iff, MissTable.contains_iff, h.blocks.mem_iff, decide_eq_true_iff]

theorem isFull_eq (h : Tracked g missSlots history c) :
    c.misses.isFull = !decide ((awaited g history).length < missSlots) := by
  have hle := c.misses.length_blocks_le
  rw [h.capacity, h.blocks.length_eq] at hle
  rw [← decide_not, Bool.eq_iff_iff, MissTable.isFull_iff, h.capacity, h.blocks.length_eq,
    decide_eq_true_iff]
  omega

theorem announced_iff (h : Tracked g missSlots history c) (b : BlockRef) :
    (!c.misses.withdrawn b) = announces g history b := by
  rw [announces]
  by_cases hb : b ∈ awaited g history
  · rw [h.noted b hb, decide_eq_true hb, Bool.true_and]
  · have hno : b ∉ c.misses.blocks := fun hmem => hb (h.blocks.mem_iff.mp hmem)
    rw [MissTable.withdrawn_of_not_mem hno, decide_eq_false hb, Bool.false_and]

/-- A call that neither asks memory nor brings a block leaves the outstanding blocks as they
are. -/
theorem kept (h : Tracked g missSlots history c) (answer : Answer) {s' : LineStore}
    {misses : MissTable} {found : Bool} (he : c.store.Effect ((usage g).use call) found s')
    (hfill : ∀ b, call ≠ .fill b)
    (hawaited : awaited g ((call, answer) :: history) = awaited g history)
    (hcapacity : misses.capacity = c.misses.capacity) (hblocks : misses.blocks = c.misses.blocks)
    (hnoted : ∀ b ∈ awaited g history,
      misses.withdrawn b = withdrawn g b ((call, answer) :: history)) :
    Tracked g missSlots ((call, answer) :: history) ⟨s', misses⟩ where
  shaped := he.shaped h.shaped
  geometry := he.geometry.trans h.geometry
  capacity := hcapacity.trans h.capacity
  blocks := by rw [hawaited, hblocks]; exact h.blocks
  nodup := by rw [hawaited]; exact h.nodup
  absent := by
    intro a kind hb
    rw [hawaited] at hb
    exact absent_of_effect he (h.absent a kind hb) fun b hcall => absurd hcall (hfill b)
  noted := by rw [hawaited]; exact hnoted

/-- A note about one block is right for all of them. -/
theorem marked (h : Tracked g missSlots history c) {answer : Answer} {cancelled : Bool}
    (htold : withdraws? g (call.block g) call = some cancelled) :
    ∀ b ∈ awaited g history, (c.misses.mark (call.block g) cancelled).withdrawn b
      = withdrawn g b ((call, answer) :: history) := by
  intro b hb
  rw [withdrawn_cons]
  by_cases hblock : b = call.block g
  · subst hblock
    rw [htold, MissTable.withdrawn_mark (h.blocks.mem_iff.mpr hb), Option.getD_some]
  · rw [withdraws?_of_ne hblock, Option.getD_none, ← h.noted b hb, MissTable.withdrawn,
      MissTable.withdrawn, MissTable.get?_mark_of_ne hblock]

/-! ## Probes -/

/-- What is not outstanding has nothing noted about it. -/
theorem unmarked (h : Tracked g missSlots history c) {answer : Answer}
    (hnot : call.block g ∉ awaited g history) :
    ∀ b ∈ awaited g history,
      c.misses.withdrawn b = withdrawn g b ((call, answer) :: history) := by
  intro b hb
  have hne : b ≠ call.block g := fun heq => hnot (heq ▸ hb)
  rw [withdrawn_cons, withdraws?_of_ne hne, Option.getD_none, h.noted b hb]

end Tracked

theorem probe_answers (hs : c.store.Shaped c.store.geometry.wordsPerLine) (p : Probe)
    (ic : Interconnect) :
    Ends (c.probe p ic) (fun _ => True) fun r =>
      c.contains p.address p.kind = .ok true ∧ r.response = .hit ∧ r.cache.misses = c.misses
        ∨ c.contains p.address p.kind = .ok false ∧ r = c.probeMiss p ic := by
  rcases find_spec hs (Geometry.locate_index_lt p.address)
    (c.store.geometry.locate p.address).tag p.kind with ⟨way, line, hfind, hl, -⟩ | ⟨hfind, -⟩
  · have hhere : c.contains p.address p.kind = .ok true := by
      rw [contains, LineStore.contains, hfind]
      rfl
    apply ((probe_found hs p hfind hl ic).faults fun _ _ => trivial).weaken
    intro r hr
    rw [hr]
    exact .inl ⟨hhere, rfl, rfl⟩
  · refine Ends.ok (probe_missing hfind ic) (.inr ⟨?_, rfl⟩)
    rw [contains, LineStore.contains, hfind]
    rfl

namespace Tracked

/-- Asking memory adds the block to those that are outstanding. -/
theorem issued (h : Tracked g missSlots history c) {p : Probe} {s' : LineStore} {found : Bool}
    (he : c.store.Effect ((usage g).use (.probe p)) found s')
    (hnew : (Call.probe p).block g ∉ awaited g history) (hfull : c.misses.isFull = false)
    (hhere : ¬c.store.Has (g.use p.address p.kind true true)) :
    Tracked g missSlots ((.probe p, .probed (.miss .issued)) :: history)
      ⟨s', c.misses.add ((Call.probe p).block g)⟩ where
  shaped := he.shaped h.shaped
  geometry := he.geometry.trans h.geometry
  capacity := (MissTable.capacity_add _ _).trans h.capacity
  blocks := by
    have hno : (Call.probe p).block g ∉ c.misses.blocks := fun hb => hnew (h.blocks.mem_iff.mp hb)
    exact (MissTable.blocks_add hno hfull).trans (h.blocks.cons _)
  nodup := List.nodup_cons.mpr ⟨hnew, h.nodup⟩
  absent := by
    intro a kind hb
    apply absent_of_effect he _ (fun b hcall => by cases hcall)
    rcases List.mem_cons.mp hb with heq | hb
    · -- the block that was just asked for
      obtain ⟨hblock, rfl⟩ := BlockRef.mk.inj heq
      obtain ⟨htag, hindex⟩ := (Geometry.locate_eq_iff (Geometry.locate_tag_lt _)
        (Geometry.locate_index_lt _)).mp hblock
      simp only [Has, Geometry.use, htag, hindex] at hhere ⊢
      exact hhere
    · exact h.absent a kind hb
  noted := by
    intro b hb
    rw [withdrawn_cons]
    by_cases hblock : b = (Call.probe p).block g
    · subst hblock
      rw [MissTable.withdrawn_add, withdraws?, if_pos rfl]
      · rfl
      · rw [h.contains_iff, decide_eq_false hnew]
    · rcases List.mem_cons.mp hb with heq | hb
      · exact absurd heq hblock
      · rw [withdraws?_of_ne hblock, Option.getD_none, ← h.noted b hb, MissTable.withdrawn,
          MissTable.withdrawn, MissTable.get?_add_of_ne hblock]

theorem probeMiss (h : Tracked g missSlots history m.cache) (p : Probe) {found : Bool}
    (he : m.cache.store.Effect ((usage g).use (.probe p)) found m.cache.store)
    (hhere : ¬m.cache.store.Has (g.use p.address p.kind true true)) :
    let r := m.cache.probeMiss p m.interconnect
    let d := disposition g missSlots history ((Call.probe p).block g)
    r.response = .miss d ∧ (d = .stalled → r.cache = m.cache ∧ r.interconnect = m.interconnect)
      ∧ Tracked g missSlots ((.probe p, .probed r.response) :: history) r.cache := by
  have hblock : m.cache.blockOf p.address p.kind = (Call.probe p).block g := h.blockOf_eq _ _
  have hcontains := h.contains_iff ((Call.probe p).block g)
  simp only [L2.probeMiss, hblock, disposition]
  by_cases hout : (Call.probe p).block g ∈ awaited g history
  · rw [if_pos (hcontains.trans (decide_eq_true hout)), if_pos hout]
    refine ⟨rfl, Disposition.noConfusion, ?_⟩
    apply h.kept (.probed (.miss .outstanding)) he (fun _ => Call.noConfusion) rfl
    · exact MissTable.capacity_mark _ _ _
    · exact MissTable.blocks_mark _ _ _
    · exact h.marked (if_pos rfl)
  · have hno : ¬m.cache.misses.contains ((Call.probe p).block g) = true := by
      rw [hcontains, decide_eq_true_iff]
      exact hout
    rw [if_neg hno, if_neg hout]
    by_cases hroom : (awaited g history).length < missSlots
    · have hfull : m.cache.misses.isFull = false := by simp [h.isFull_eq, hroom]
      rw [hfull, if_neg Bool.false_ne_true, if_pos hroom]
      exact ⟨rfl, Disposition.noConfusion, h.issued he hout hfull hhere⟩
    · have hfull : m.cache.misses.isFull = true := by simp [h.isFull_eq, hroom]
      rw [if_pos hfull, if_neg hroom]
      refine ⟨rfl, fun _ => ⟨rfl, rfl⟩, ?_⟩
      exact h.kept (.probed (.miss .stalled)) he (fun _ => Call.noConfusion) rfl rfl rfl
        (h.unmarked hout)

/-! ## One call -/

theorem probe (h : Tracked g missSlots history m.cache) (p : Probe) :
    Ends (m.perform (.probe p)) (fun _ => True) fun r =>
      Foretold g missSlots history m (.probe p) r.1 r.2
        ∧ Tracked g missSlots ((.probe p, r.1) :: history) r.2.cache := by
  have hs := h.store_shaped
  obtain ⟨here, hcontains, hhere⟩ := contains_has hs p.address p.kind
  rw [h.geometry] at hhere
  apply Ends.bind' ((probe_answers hs p m.interconnect).also (probe_effect hs p m.interconnect))
  intro r hr
  obtain ⟨hanswer, heffect⟩ := hr
  rw [h.geometry] at heffect
  apply Ends.pure'
  rcases hanswer with ⟨htrue, hresponse, hmisses⟩ | ⟨hfalse, rfl⟩
  · -- a block that is here is not outstanding
    have hhas : m.cache.store.Has (g.use p.address p.kind true true) :=
      hhere.mp (Except.ok.inj (hcontains.symm.trans htrue))
    have hnot : (Call.probe p).block g ∉ awaited g history :=
      fun hout => h.absent p.address p.kind hout hhas
    rw [hresponse]
    refine ⟨.inl ⟨htrue, rfl⟩, ?_⟩
    apply h.kept (.probed .hit) (show Effect _ ((usage g).use (.probe p)) _ _ from heffect)
      (fun _ => Call.noConfusion) rfl
    · rw [hmisses]
    · rw [hmisses]
    · rw [hmisses]
      exact h.unmarked hnot
  · have hhas : ¬m.cache.store.Has (g.use p.address p.kind true true) := by
      rw [← hhere, Except.ok.inj (hcontains.symm.trans hfalse)]
      exact Bool.false_ne_true
    rw [probeMiss_store] at heffect
    obtain ⟨hresponse, hstalled, htracked⟩ := h.probeMiss p heffect hhas
    refine ⟨.inr ⟨hfalse, congrArg Answer.probed hresponse, ?_⟩, htracked⟩
    intro hanswer
    rw [hresponse] at hanswer
    obtain ⟨hcache, hinterconnect⟩ := hstalled (by simpa using hanswer)
    rw [hcache, hinterconnect]

theorem cancel (h : Tracked g missSlots history m.cache) (address : Nat) (kind : Kind) :
    Ends (m.perform (.cancel address kind)) (fun _ => True) fun r =>
      Foretold g missSlots history m (.cancel address kind) r.1 r.2
        ∧ Tracked g missSlots ((.cancel address kind, r.1) :: history) r.2.cache := by
  have hblock : m.cache.blockOf address kind = (Call.cancel address kind).block g :=
    h.blockOf_eq address kind
  have hcancelled : (m.cache.cancel address kind).1
      = decide ((Call.cancel address kind).block g ∈ awaited g history) := by
    rw [← h.contains_iff, ← hblock]
    rfl
  obtain ⟨found, heffect⟩ : ∃ found,
      m.cache.store.Effect ((usage g).use (.cancel address kind)) found m.cache.store := by
    by_cases hhas : m.cache.store.Has ((usage g).use (.cancel address kind))
    · exact ⟨true, .left hhas rfl⟩
    · exact ⟨false, .missed hhas rfl⟩
  refine Ends.pure' ⟨congrArg Answer.cancelled hcancelled, ?_⟩
  apply h.kept (.cancelled (m.cache.cancel address kind).1) heffect (fun _ => Call.noConfusion) rfl
  · exact MissTable.capacity_mark _ _ _
  · exact MissTable.blocks_mark _ _ _
  · rw [hblock]
    exact h.marked (if_pos rfl)

end Tracked

theorem fill_answers (c : L2) (b : BlockRef) (ic : Interconnect) (memories : PerKind Port) :
    Ends (c.fill b ic memories) (fun _ => True) fun r =>
      r.cache.misses = c.misses.erase (c.waiting b)
        ∧ r.notified = !c.misses.withdrawn (c.waiting b)
        ∧ r.interconnect = if r.notified then ic.sendOn b .l2ToL1 else ic := by
  rw [L2.fill]
  apply Ends.bind' Ends.any
  intro found _
  cases found with
  | some way =>
    apply Ends.bind' Ends.any
    intro store _
    exact Ends.pure' ⟨rfl, rfl, rfl⟩
  | none =>
    apply Ends.bind' Ends.any
    intro replaced _
    exact Ends.pure' ⟨rfl, rfl, rfl⟩

namespace Tracked

theorem fill (h : Tracked g missSlots history m.cache) (b : BlockRef) :
    Ends (m.perform (.fill b)) (fun _ => True) fun r =>
      Foretold g missSlots history m (.fill b) r.1 r.2
        ∧ Tracked g missSlots ((.fill b, r.1) :: history) r.2.cache := by
  have hs := h.store_shaped
  have hblock : m.cache.waiting b = (Call.fill b).block g := h.blockOf_eq b.address b.kind
  apply Ends.bind' ((fill_answers m.cache b m.interconnect m.memories).also
    (fill_effect hs b m.interconnect m.memories))
  intro r hr
  obtain ⟨⟨hmisses, hnotified, hinterconnect⟩, found, heffect⟩ := hr
  rw [hblock] at hmisses hnotified
  rw [h.announced_iff] at hnotified
  rw [h.geometry] at heffect
  refine Ends.pure' ⟨⟨⟨r.wroteBack?, congrArg (Answer.filled _) hnotified⟩, ?_⟩, ?_⟩
  · rw [← hnotified]
    exact hinterconnect
  have heffect : m.cache.store.Effect ((usage g).use (.fill b)) found r.cache.store := heffect
  have hnodup : m.cache.misses.blocks.Nodup := h.blocks.nodup_iff.mpr h.nodup
  refine ⟨heffect.shaped h.shaped, heffect.geometry.trans h.geometry, ?_, ?_, ?_, ?_, ?_⟩
  · rw [hmisses, MissTable.capacity_erase, h.capacity]
  · rw [hmisses]
    exact (MissTable.blocks_erase_filter hnodup _).trans (h.blocks.filter _)
  · exact h.nodup.filter _
  · intro a kind hmem
    obtain ⟨hmem, hne⟩ := List.mem_filter.mp hmem
    apply absent_of_effect heffect (h.absent a kind hmem)
    intro b' hb'
    exact of_decide_eq_true hne
  · intro b' hmem
    obtain ⟨hmem, hne⟩ := List.mem_filter.mp hmem
    rw [withdrawn_cons, withdraws?, Option.getD_none, ← h.noted b' hmem, hmisses,
      MissTable.withdrawn, MissTable.withdrawn,
      MissTable.get?_erase_of_ne (of_decide_eq_true hne)]

theorem perform (h : Tracked g missSlots history m.cache) (call : Call) :
    Ends (m.perform call) (fun _ => True) fun r =>
      Foretold g missSlots history m call r.1 r.2
        ∧ Tracked g missSlots ((call, r.1) :: history) r.2.cache := by
  cases call with
  | probe p => exact h.probe p
  | fill b => exact h.fill b
  | cancel address kind => exact h.cancel address kind

end Tracked

/-! ## Runs -/

theorem empty_tracked (g : Geometry) (missSlots : Nat) :
    Tracked g missSlots [] (L2.empty g missSlots) where
  shaped := empty_shaped g .data _
  geometry := rfl
  capacity := List.length_replicate
  blocks := by
    rw [show (L2.empty g missSlots).misses = MissTable.empty missSlots from rfl,
      MissTable.blocks_empty]
    exact List.Perm.refl _
  nodup := List.nodup_nil
  absent := fun _ _ h => by cases h
  noted := fun _ h => by cases h

theorem run_tracked (g : Geometry) (missSlots : Nat) (ic : Interconnect)
    (memories : PerKind Port) (calls : List Call) :
    Ends (record Machine.perform ⟨L2.empty g missSlots, ic, memories⟩ calls) (fun _ => True)
      fun r => Tracked g missSlots r.1 r.2.cache := by
  apply Ends.record (fun _ past (m : Machine) => Tracked g missSlots past m.cache) ?_ calls []
    ⟨L2.empty g missSlots, ic, memories⟩ (empty_tracked g missSlots)
  intro call _ past m h
  exact (h.perform call).weaken fun r hr => hr.2

/-- **Cancelling and asking again.** An L2 without any block takes calls in any order. Then a slot
is free if fewer blocks are outstanding than there are slots, and for one more call:

* a cancellation tells whether the block is outstanding;
* a probe of a block that is not here is answered `outstanding` if it is, else `issued` if a slot is
  free, else `stalled`, and then nothing changes;
* an arrival is announced, unless the block is outstanding and the last one of its probes and
  cancellations was a cancellation.

Over memories of whole lines, with arrivals inside them, the calls go through unless they are
more than the clock can count. -/
theorem cancel_and_rearm (g : Geometry) (missSlots : Nat) (ic : Interconnect)
    (memories : PerKind Port) (calls : List Call) :
    Ends (record Machine.perform ⟨L2.empty g missSlots, ic, memories⟩ calls)
      (fun f => (∀ kind, (memories.get kind).Fits g)
          ∧ (∀ call ∈ calls, Machine.Admissible memories g call) →
        f = .overflow ∧ UInt64.size ≤ calls.length)
      fun (history, m) =>
        m.cache.misses.isFull = !decide ((awaited g history).length < missSlots)
          ∧ ∀ call, Ends (m.perform call)
            (fun f => (∀ kind, (memories.get kind).Fits g)
                ∧ (∀ call' ∈ call :: calls, Machine.Admissible memories g call') →
              f = .overflow ∧ UInt64.size ≤ calls.length + 1)
            fun (answer, m') => Foretold g missSlots history m call answer m' := by
  have hrun := (run_tracked g missSlots ic memories calls).provided
    (H := (∀ kind, (memories.get kind).Fits g)
      ∧ ∀ call ∈ calls, Machine.Admissible memories g call)
    fun hH => Machine.run_holds g missSlots ic memories hH.1 calls hH.2
  apply hrun.mono (fun f hf => hf.2)
  intro r hr
  obtain ⟨htracked, hholds⟩ := hr
  refine ⟨htracked.isFull_eq, ?_⟩
  intro call
  have hnext := (htracked.perform call).provided
    (H := (∀ kind, (memories.get kind).Fits g)
      ∧ ∀ call' ∈ call :: calls, Machine.Admissible memories g call')
    fun hH => (hholds ⟨hH.1, fun c hc => hH.2 c (List.mem_cons_of_mem _ hc)⟩).next call
      (hH.2 call List.mem_cons_self)
  exact hnext.mono (fun f hf => hf.2) fun r hr => hr.1.1

end L2

end MemoryHierarchy
