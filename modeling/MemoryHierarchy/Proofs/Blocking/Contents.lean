import Mathlib.Logic.Function.Basic
import MemoryHierarchy.Proofs.Blocking.Transparency
import MemoryHierarchy.Proofs.MemoryWords

/-!
What a blocking cache and its memory hold together, block by block.

`Backed` relates a store and its memory to the contents of the blocks, whatever the width of the
words of memory and wherever it ends: a line has the contents of its block, memory has those of
each block of which no line is dirty, and what is not in memory is never asked for. Giving a line up
saves its block (`Backed.writeBack`), and the line can then take another one (`Backed.used`). So
an access finds the contents and rewrites them (`Backed.serve`), and over a run the contents are
those of a memory that takes every access at once (`run_contents`).
-/

namespace MemoryHierarchy

open LineStore

/-- The words of a block after the operation on the one at `offset`. -/
def Operation.rewrite (op : Operation) (offset : Nat) (words : List Word) : List Word :=
  match op with
  | .read => words
  | .write word => words.set offset word

theorem Operation.perform_words (op : Operation) (offset : Nat) (line : Line) :
    (op.perform offset line).words = op.rewrite offset line.words := by
  cases op <;> rfl

/-- A block that is used has no copy outside the line in which it belongs. -/
theorem LineStore.Takes.only {s : LineStore} {a way i v : Nat} {kind : Kind} {found : Bool}
    {new line : Line} (hs : s.Sound)
    (h : s.Takes (s.geometry.locate a).index (s.geometry.locate a).tag kind found way new)
    (hc : s.CopyAt i v ⟨(s.geometry.locate a).block, kind⟩ line) :
    found = true ∧ i = (s.geometry.locate a).index ∧ v = way := by
  obtain ⟨rfl, hholds⟩ := hc.place hs
  cases found with
  | true =>
    obtain ⟨old, hl⟩ := h.exists_old
    obtain ⟨hvalid, hold, hkind⟩ := holds_iff.mp (h.of_found rfl old hl)
    refine ⟨rfl, hs.unique hc ⟨hl, hvalid, ?_, hkind⟩⟩
    rw [hold]
    rfl
  | false =>
    rw [(h.of_not_found rfl).2 v line hc.here] at hholds
    cases hholds

theorem LineStore.Takes.holds_eq_false {s : LineStore} {a way v : Nat} {kind : Kind} {found : Bool}
    {new line : Line} (hs : s.Sound)
    (h : s.Takes (s.geometry.locate a).index (s.geometry.locate a).tag kind found way new)
    (hv : v ≠ way) (hl : s.line? (s.geometry.locate a).index v = some line) :
    line.holds (s.geometry.locate a).tag kind = false := by
  apply Bool.eq_false_iff.mpr
  intro hholds
  obtain ⟨hvalid, htag, hkind⟩ := holds_iff.mp hholds
  exact hv (h.only hs ⟨hl, hvalid, by rw [htag]; rfl, hkind⟩).2.2

namespace BlockingCache

/-- The words of the blocks of a memory. -/
def blocksOf (g : Geometry) (memory : Memory) (block : Nat) : Option (List Word) :=
  if g.lineBytes ∣ block then
    (memory.readWords g.word.bytes block g.wordsPerLine).toOption
  else none

/-- The words of the blocks of a memory that takes every access at once. The latest one comes
first. -/
def blocksAfter (g : Geometry) (memory : Memory) : List Access → Nat → Option (List Word)
  | [] => blocksOf g memory
  | access :: earlier =>
    let place := g.locate access.address
    let before := blocksAfter g memory earlier
    Function.update before place.block
      ((before place.block).map (access.operation.rewrite place.offset))

/-- A store on one path and its memory make up the contents of the blocks. -/
structure Backed (contents : Nat → Option (List Word)) (kind : Kind) (s : LineStore)
    (memory : Memory) : Prop where
  sound : s.Sound
  onePath : s.OnePath kind
  dvd : ∀ {b words}, contents b = some words → s.geometry.lineBytes ∣ b
  length : ∀ {b words}, contents b = some words → words.length = s.geometry.wordsPerLine
  writable : ∀ {b words}, contents b = some words →
    ∃ old, old.length = s.geometry.wordsPerLine ∧ memory.Stores s.geometry.word.bytes b old
  lines : ∀ {i v b line}, s.CopyAt i v ⟨b, kind⟩ line → contents b = some line.words
  stored : ∀ {b words}, contents b = some words →
    (∀ i v line, s.CopyAt i v ⟨b, kind⟩ line → line.dirty = false) →
    memory.Stores s.geometry.word.bytes b words

variable {contents : Nat → Option (List Word)} {kind : Kind} {s : LineStore} {memory : Memory}
  {p : Port} {index way a : Nat} {old new : Line} {words : List Word} {found : Bool}
  {g : Geometry}

theorem blocksOf_eq_some {b : Nat} : blocksOf g memory b = some words ↔
    g.lineBytes ∣ b ∧ words.length = g.wordsPerLine ∧ memory.Stores g.word.bytes b words := by
  have hread : (memory.readWords g.word.bytes b g.wordsPerLine).toOption = some words
      ↔ words.length = g.wordsPerLine ∧ memory.Stores g.word.bytes b words := by
    have hok : ∀ x : Except Fault (List Word), x.toOption = some words ↔ x = .ok words := by
      intro x
      cases x <;> simp [Except.toOption]
    rw [hok, Memory.readWords_eq_ok_iff_stores g.wordsPerLine_le]
  rw [blocksOf]
  split
  · next hd => rw [hread, and_iff_right hd]
  · next hd => exact iff_of_false (by simp) fun h => hd h.1

/-- The contents of a block after one block has got others. -/
theorem update_eq_some {b b' : Nat} {words' : List Word} :
    Function.update contents b (some words) b' = some words'
      ↔ b' = b ∧ words = words' ∨ b' ≠ b ∧ contents b' = some words' := by
  by_cases hb : b' = b
  · subst hb
    rw [Function.update_self, Option.some.injEq]
    exact ⟨fun h => .inl ⟨rfl, h⟩, fun h => h.elim And.right fun h => absurd rfl h.1⟩
  · rw [Function.update_of_ne hb]
    exact ⟨fun h => .inr ⟨hb, h⟩, fun h => h.elim (fun h => absurd h.1 hb) And.right⟩

/-- An empty store leaves everything to its memory. -/
theorem empty_backed (g : Geometry) (kind : Kind) (memory : Memory) :
    Backed (blocksOf g memory) kind (LineStore.withData g kind) memory where
  sound :=
    { shaped := empty_shaped g kind g.wordsPerLine
      tag_lt := by
        intro i v line hl
        rw [empty_line? hl]
        exact twoPow_pos _
      unique := fun h => absurd h not_copyAt_empty }
  onePath := empty_onePath g kind _
  dvd h := (blocksOf_eq_some.mp h).1
  length h := (blocksOf_eq_some.mp h).2.1
  writable h := ⟨_, (blocksOf_eq_some.mp h).2⟩
  lines h := absurd h not_copyAt_empty
  stored h _ := (blocksOf_eq_some.mp h).2.2

namespace Backed

/-! ## Giving a line up -/

/-- A line is written back if it is dirty. Then memory has the words of its block. -/
theorem writeBack (h : Backed contents kind s p.memory) (hl : s.line? index way = some old) :
    ∃ wrote? port, p.writeBack s.geometry index old = .ok (wrote?, port)
      ∧ Backed contents kind s port.memory
      ∧ ∀ b, s.CopyAt index way ⟨b, kind⟩ old →
          port.memory.Stores s.geometry.word.bytes b old.words := by
  by_cases hdirty : old.needsWriteBack = true
  · obtain ⟨hvalid, -⟩ := Bool.and_eq_true_iff.mp hdirty
    have hc : s.CopyAt index way ⟨s.geometry.blockStart old.tag index, kind⟩ old :=
      ⟨hl, hvalid, rfl, h.onePath _ _ _ hl⟩
    have hold := h.lines hc
    have hlength := h.sound.shaped.words _ _ _ hl
    obtain ⟨before, hbefore, hstores⟩ := h.writable hold
    obtain ⟨m, hwrite, hnew, hothers⟩ := hstores.writeBlock hbefore hlength (h.dvd hold)
    refine ⟨some ⟨s.geometry.blockStart old.tag index, old.kind⟩, { p with memory := m }.note .write
      s.geometry.word.bytes (s.geometry.blockStart old.tag index) old.words, ?_, ?_, ?_⟩
    · simp only [Port.writeBack, hdirty, if_true, Port.writeWords, hwrite]
      rfl
    · rw [Port.note_memory]
      -- the block of the line has its words now, all others are as they were
      refine { h with writable := ?_, stored := ?_ }
      · intro b ws hb
        by_cases hblock : b = s.geometry.blockStart old.tag index
        · exact ⟨old.words, hlength, hblock ▸ hnew⟩
        · obtain ⟨kept, hkept, hstores⟩ := h.writable hb
          exact ⟨kept, hkept, hothers b kept (h.dvd hb) hblock hkept hstores⟩
      · intro b ws hb hclean
        by_cases hblock : b = s.geometry.blockStart old.tag index
        · subst hblock
          rw [← Option.some.inj (hold.symm.trans hb)]
          exact hnew
        · exact hothers b ws (h.dvd hb) hblock (h.length hb) (h.stored hb hclean)
    · intro b hb
      rw [Port.note_memory]
      have haddress : s.geometry.blockStart old.tag index = b := hb.address
      rw [← haddress]
      exact hnew
  · refine ⟨none, p, Port.writeBack_clean (Bool.not_eq_true _ ▸ hdirty) index, h, ?_⟩
    intro b hb
    apply h.stored (h.lines hb)
    intro i v line hc
    rw [h.sound.same hb hc]
    rw [Line.needsWriteBack, hb.valid, Bool.true_and] at hdirty
    exact Bool.not_eq_true _ ▸ hdirty

/-- Another block than the one that is put in a line is in memory if no line of it is dirty: the
line may have held it before, but then it was saved. -/
theorem stored_of_ne (h : Backed contents kind s memory)
    (hl : s.line? (s.geometry.locate a).index way = some old)
    (hsaved : ∀ b line, s.CopyAt (s.geometry.locate a).index way ⟨b, kind⟩ line →
      b ≠ (s.geometry.locate a).block → memory.Stores s.geometry.word.bytes b line.words)
    {b : Nat} (hb : b ≠ (s.geometry.locate a).block) (hwords : contents b = some words)
    (hclean : ∀ i v line, (s.used (s.geometry.locate a).index way new).CopyAt i v ⟨b, kind⟩ line →
      line.dirty = false) :
    memory.Stores s.geometry.word.bytes b words := by
  by_cases hold : s.CopyAt (s.geometry.locate a).index way ⟨b, kind⟩ old
  · rw [Option.some.inj (hwords.symm.trans (h.lines hold))]
    exact hsaved b old hold hb
  · apply h.stored hwords
    intro i v line hc
    apply hclean i v line
    rw [copyAt_used hl, if_neg]
    · exact hc
    · rintro ⟨rfl, rfl⟩
      apply hold
      rw [← Option.some.inj (hc.here.symm.trans hl)]
      exact hc

/-- The block of an address is put in its line, with words of its own. The line must have been
saved if it held another block, and memory must have the words unless the line is dirty. -/
theorem used (h : Backed contents kind s memory)
    (htakes : s.Takes (s.geometry.locate a).index (s.geometry.locate a).tag kind found way new)
    (hb : contents (s.geometry.locate a).block = some words)
    (hsaved : ∀ b old, s.CopyAt (s.geometry.locate a).index way ⟨b, kind⟩ old →
      b ≠ (s.geometry.locate a).block → memory.Stores s.geometry.word.bytes b old.words)
    (hclean : new.dirty = false →
      memory.Stores s.geometry.word.bytes (s.geometry.locate a).block new.words) :
    Backed (Function.update contents (s.geometry.locate a).block (some new.words)) kind
      (s.used (s.geometry.locate a).index way new) memory := by
  obtain ⟨old, hl⟩ := htakes.exists_old
  obtain ⟨hvalid, htag, hkind⟩ := holds_iff.mp htakes.holds
  have hlength : new.words.length = s.geometry.wordsPerLine :=
    (htakes.words old hl).trans (h.sound.shaped.words _ _ _ hl)
  have hnew : s.geometry.blockStart new.tag (s.geometry.locate a).index
      = (s.geometry.locate a).block := by
    rw [htag]
    rfl
  refine { sound := ?_, onePath := h.onePath.used htakes, dvd := ?_, length := ?_, writable := ?_,
           lines := ?_, stored := ?_ }
  · apply h.sound.used hl (htag ▸ Geometry.locate_tag_lt a) hlength
    intro _ i v line hiv hc
    rw [hnew, hkind] at hc
    exact hiv (htakes.only h.sound hc).2
  · intro b ws hws
    rcases update_eq_some.mp hws with ⟨rfl, -⟩ | ⟨-, hws⟩
    · exact h.dvd hb
    · exact h.dvd hws
  · intro b ws hws
    rcases update_eq_some.mp hws with ⟨-, rfl⟩ | ⟨-, hws⟩
    · exact hlength
    · exact h.length hws
  · intro b ws hws
    rcases update_eq_some.mp hws with ⟨rfl, -⟩ | ⟨-, hws⟩
    · exact h.writable hb
    · exact h.writable hws
  · intro i v b line hc
    apply update_eq_some.mpr
    rw [copyAt_used hl] at hc
    split at hc
    · obtain ⟨rfl, -, haddress, -⟩ := hc
      exact .inl ⟨haddress.symm.trans hnew, rfl⟩
    · next hiv =>
      refine .inr ⟨?_, h.lines hc⟩
      rintro rfl
      exact hiv (htakes.only h.sound hc).2
  · intro b ws hws hall
    rcases update_eq_some.mp hws with ⟨rfl, rfl⟩ | ⟨hblock, hws⟩
    · apply hclean
      refine hall (s.geometry.locate a).index way { new with recency := s.clock + 1 } ?_
      rw [copyAt_used hl, if_pos ⟨rfl, rfl⟩]
      exact ⟨rfl, hvalid, hnew, hkind⟩
    · exact h.stored_of_ne hl hsaved hblock hws hall

/-! ## Accesses -/

variable {c : BlockingCache} {access : Access}

/-- What the line of a block and the memory are like when the block has been brought. -/
structure Brings (contents : Nat → Option (List Word)) (c : BlockingCache) (a : Nat)
    (words : List Word) (q : Present) (new : Line) : Prop where
  brought : c.Brought a q new
  words_eq : new.words = words
  clean : new.dirty = false →
    q.port.memory.Stores c.store.geometry.word.bytes (c.store.geometry.locate a).block words
  backed : Backed contents c.kind c.store q.port.memory
  saved : ∀ b old, c.store.CopyAt (c.store.geometry.locate a).index q.way ⟨b, c.kind⟩ old →
    b ≠ (c.store.geometry.locate a).block →
    q.port.memory.Stores c.store.geometry.word.bytes b old.words

/-- A block that has contents is brought with them, unless the clock has no next value. -/
theorem bring (h : Backed contents c.kind c.store p.memory)
    (hb : contents (c.store.geometry.locate a).block = some words) :
    Ends (c.bring a p) c.store.Exhausted fun q => ∃ new, Brings contents c a words q new := by
  have hs := h.sound.shaped
  have hi : (c.store.geometry.locate a).index < c.store.geometry.sets := Geometry.locate_index_lt a
  rw [BlockingCache.bring]
  rcases find_spec hs hi (c.store.geometry.locate a).tag c.kind with
    ⟨way, line, hfind, hl, hholds⟩ | ⟨hfind, hno⟩
  · obtain ⟨hvalid, htag, hkind⟩ := holds_iff.mp hholds
    have hc : c.store.CopyAt (c.store.geometry.locate a).index way
        ⟨(c.store.geometry.locate a).block, c.kind⟩ line := ⟨hl, hvalid, by rw [htag]; rfl, hkind⟩
    apply Ends.bind_ok hfind
    apply Ends.bind' (touch_spec hs hl)
    intro store hstore
    subst hstore
    refine Ends.pure' ⟨line, ⟨rfl, Takes.of_holds hl hholds hholds rfl, rfl⟩,
      Option.some.inj ((h.lines hc).symm.trans hb), fun hclean => h.stored hb ?_, h, ?_⟩
    · intro i v line' hc'
      rw [h.sound.same hc hc']
      exact hclean
    · intro b old hold hne
      exact absurd (congrArg BlockRef.address (hc.block_eq hold)) hne
  · obtain ⟨way, old, hvictim, hl⟩ := victim_spec hs hi
    obtain ⟨wrote?, port, hwrite, hbacked, hsaved⟩ := h.writeBack hl
    have hlength : old.words.length = c.store.geometry.wordsPerLine := hs.words _ _ _ hl
    have hstores : port.memory.Stores c.store.geometry.word.bytes
        (c.store.geometry.locate a).block words := by
      apply hbacked.stored hb
      intro i v line hc
      obtain ⟨rfl, hholds⟩ := hc.place h.sound
      rw [hno v line hc.here] at hholds
      cases hholds
    apply Ends.bind_ok hfind
    apply Ends.bind_ok hvictim
    apply Ends.bind_ok (line_eq hs hl)
    apply Ends.bind_ok hwrite
    apply Ends.bind' (install_spec hs hl _ _)
    intro installed hinstalled
    subst hinstalled
    apply Ends.bind_ok (Port.fetch_of_stores hstores (h.length hb))
    apply Ends.bind_ok (putWords_used hs hl (old.claim (c.store.geometry.locate a).tag c.kind)
      hlength words)
    refine Ends.pure' ⟨{ old.claim (c.store.geometry.locate a).tag c.kind with words },
      ⟨rfl, ?_, rfl⟩, rfl, ?_, ?_, ?_⟩
    · exact Takes.of_victim hl hvictim hno (Line.holds_claim _ _ _ _)
        ((h.length hb).trans hlength.symm)
    · intro _
      rw [Port.note_memory]
      exact hstores
    · rw [Port.note_memory]
      exact hbacked
    · intro b line hc _
      rw [Port.note_memory]
      obtain rfl := Option.some.inj (hl.symm.trans hc.here)
      exact hsaved b hc

/-- What an access gives, and what it leaves. -/
structure Serves (contents : Nat → Option (List Word)) (c : BlockingCache) (access : Access)
    (words : List Word) (r : Served × BlockingCache × Port) : Prop where
  backed : Backed (Function.update contents (c.store.geometry.locate access.address).block
      (some (access.operation.rewrite (c.store.geometry.locate access.address).offset words)))
    c.kind r.2.1.store r.2.2.memory
  value : (access.operation.rewrite (c.store.geometry.locate access.address).offset
    words)[(c.store.geometry.locate access.address).offset]? = some r.1.value
  latency : r.1.latency = c.latency r.1.outcome
  cache : ∃ store, r.2.1 = { c with store } ∧ store.geometry = c.store.geometry
    ∧ store.clock = c.store.clock + 1

/-- An access to a block that has contents answers from them and rewrites them. -/
theorem serve (h : Backed contents c.kind c.store p.memory)
    (hb : contents (c.store.geometry.locate access.address).block = some words) :
    Ends (c.serve access p) c.store.Exhausted (Serves contents c access words) := by
  have hbring := (h.bring hb).weaken fun q hq =>
    hq.imp fun new hnew => And.intro hnew.brought hnew
  apply (serve_spec h.sound.shaped hbring).weaken
  intro r hr
  obtain ⟨q, new, hperformed, hbrings⟩ := hr
  have hwords := hbrings.words_eq
  have htakes := hperformed.takes
  have hvalue := hperformed.value_eq
  have hcache := hperformed.used
  rw [Operation.perform_words, hwords] at hvalue
  -- Only a read leaves a clean line, and it leaves the words alone.
  have hsaves : (access.operation.perform (c.store.geometry.locate access.address).offset new).dirty
      = false → q.port.memory.Stores c.store.geometry.word.bytes
        (c.store.geometry.locate access.address).block
        (access.operation.perform (c.store.geometry.locate access.address).offset new).words := by
    intro hdirty
    cases hop : access.operation with
    | read =>
      rw [hop] at hdirty
      rw [Operation.perform, hwords]
      exact hbrings.clean hdirty
    | write word =>
      rw [hop] at hdirty
      cases hdirty
  have hused := hbrings.backed.used (htakes.rewrite
    ((Operation.perform_holds _ _ _ _ _).trans htakes.holds) (Operation.length_perform _ _ _))
    hb hbrings.saved hsaves
  rw [Operation.perform_words, hwords] at hused
  refine ⟨?_, hvalue, ?_, _, hcache, rfl, rfl⟩
  · rw [hcache, hperformed.port]
    exact hused
  · rw [hperformed.latency, hperformed.outcome]

end Backed

/-! ## Runs -/

/-- The answer to an access says what the contents say, and has the price of its outcome. -/
structure Tells (g : Geometry) (memory : Memory) (missPenalty : Nat)
    (past : List (Access × Answer)) (access : Access) (answer : Answer) : Prop where
  value : (blocksAfter g memory (access :: past.map Prod.fst)
    (g.locate access.address).block).bind (·[(g.locate access.address).offset]?)
      = some answer.served.value
  latency : answer.served.latency = if answer.served.outcome = .hit then 0 else missPenalty

/-- Accesses neither add blocks to a memory nor take them away. -/
theorem blocksAfter_isSome (g : Geometry) (memory : Memory) (past : List Access) (b : Nat) :
    (blocksAfter g memory past b).isSome = (blocksOf g memory b).isSome := by
  induction past with
  | nil => rfl
  | cons access earlier ih =>
    rw [blocksAfter]
    by_cases hb : b = (g.locate access.address).block
    · subst hb
      rw [Function.update_self, Option.isSome_map, ih]
    · rw [Function.update_of_ne hb, ih]

theorem isSome_blocksOf (g : Geometry) (memory : Memory) (a : Nat) :
    (blocksOf g memory (g.locate a).block).isSome ↔ memory.HasBlock g (g.locate a).block := by
  rw [blocksOf, if_pos (Geometry.locate_block_dvd a), Memory.HasBlock]
  cases memory.readWords g.word.bytes (g.locate a).block g.wordsPerLine <;>
    simp [Except.toOption]

/-- What holds after the accesses in `past`, with `rest` still to come. -/
structure Kept (g : Geometry) (memory : Memory) (kind : Kind) (missPenalty total : Nat)
    (rest : List Access) (past : List (Access × Answer)) (m : Machine) : Prop where
  inside : ∀ access ∈ rest, memory.HasBlock g (g.locate access.address).block
  count : past.length + rest.length = total
  clock : m.cache.store.clock = past.length
  path : m.cache.kind = kind
  penalty : m.cache.missPenalty = missPenalty
  geometry : m.cache.store.geometry = g
  backed : Backed (blocksAfter g memory (past.map Prod.fst)) kind m.cache.store m.port.memory
  told : Each (Tells g memory missPenalty) past

theorem Kept.perform {total missPenalty : Nat} {rest : List Access}
    {past : List (Access × Answer)} {access : Access} {m : Machine}
    (h : Kept g memory kind missPenalty total (access :: rest) past m) :
    Ends (m.perform access) (fun f => f = .overflow ∧ UInt64.size ≤ total) fun r =>
      Kept g memory kind missPenalty total rest ((access, r.1) :: past) r.2 := by
  obtain ⟨hinside, hcount, hclock, rfl, rfl, rfl, hbacked, htold⟩ := h
  have hblock := (isSome_blocksOf _ _ _).mpr (hinside access List.mem_cons_self)
  rw [← blocksAfter_isSome _ _ (past.map Prod.fst)] at hblock
  obtain ⟨words, hwords⟩ := Option.isSome_iff_exists.mp hblock
  obtain ⟨wasHere, hcontains, -⟩ := contains_spec hbacked.sound access.address m.cache.kind
  rw [List.length_cons] at hcount
  rw [Machine.perform]
  apply Ends.bind_ok hcontains
  apply Ends.bind' ((hbacked.serve hwords).faults _)
  · intro r hr
    obtain ⟨served, cache, port⟩ := r
    obtain ⟨hbacked', hvalue, hlatency, store, hcache, hgeometry, hclock'⟩ := hr
    dsimp only at hbacked' hvalue hlatency hcache
    subst hcache
    have hafter : blocksAfter m.cache.store.geometry memory (access :: past.map Prod.fst)
        = Function.update (blocksAfter m.cache.store.geometry memory (past.map Prod.fst))
          (m.cache.store.geometry.locate access.address).block
          (some (access.operation.rewrite
            (m.cache.store.geometry.locate access.address).offset words)) := by
      rw [blocksAfter, hwords]
      rfl
    refine Ends.pure' ⟨fun a ha => hinside a (List.mem_cons_of_mem _ ha), ?_, ?_, rfl, rfl,
      hgeometry, ?_, ⟨?_, ?_⟩, htold⟩
    · rw [List.length_cons]
      omega
    · rw [List.length_cons, hclock', hclock]
    · rw [List.map_cons, hafter]
      exact hbacked'
    · rw [hafter, Function.update_self]
      exact hvalue
    · rw [hlatency]
      cases served.outcome <;> rfl
  · intro f hf
    obtain ⟨hoverflow, hfull⟩ := hf
    exact ⟨hoverflow, by omega⟩

/-- A run over blocks that memory has goes through, and shows what a memory shows that takes every
access at once. -/
theorem run_contents (g : Geometry) (kind : Kind) (missPenalty : Nat) (port : Port)
    (accesses : List Access)
    (hinside : ∀ access ∈ accesses, port.memory.HasBlock g (g.locate access.address).block) :
    Ends (record Machine.perform ⟨empty g kind missPenalty, port⟩ accesses)
      (fun f => f = .overflow ∧ UInt64.size ≤ accesses.length) fun r =>
        Kept g port.memory kind missPenalty accesses.length [] r.1 r.2 := by
  apply Ends.record (Kept g port.memory kind missPenalty accesses.length)
  · intro access rest past m h
    exact h.perform
  · exact ⟨hinside, Nat.zero_add _, rfl, rfl, rfl, rfl, empty_backed g kind _, trivial⟩

end BlockingCache

end MemoryHierarchy
