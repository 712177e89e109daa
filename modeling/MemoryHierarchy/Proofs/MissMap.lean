import Mathlib.Data.Finmap
import MemoryHierarchy.Proofs.Outstanding
import MemoryHierarchy.Proofs.Run

/-!
The miss table as a finite map of bounded size.

`Outstanding` maps each outstanding block to whether its requester has withdrawn, and has its own
account of every call (`Outstanding.perform`), with room for so many blocks. The table does the same
with slots that are freed and taken again in any order. `Represents` relates the two: no block is in
two slots, and a look-up in the slots finds what the map has. Every call keeps it and gets the same
reply from both (`Represents.perform`), and it changes one slot at most, that of its block or the
first free one (`changes_of_block`, `changes_add`).
-/

namespace MemoryHierarchy

namespace MissTable

variable {t t' : MissTable} {b : BlockRef} {miss : Miss}

/-! ## Calls, on slots and on maps -/

/-- What is asked of the table. -/
inductive Call where
  | add (block : BlockRef)
  | erase (block : BlockRef)
  | cancel (block : BlockRef)
  | rearm (block : BlockRef)
  deriving Repr, DecidableEq

/-- The block that a call is about. -/
def Call.block : Call → BlockRef
  | .add b | .erase b | .cancel b | .rearm b => b

/-- The reply to a call. -/
inductive Reply where
  | done
  /-- What was known of a block that is not outstanding any more. -/
  | erased (miss? : Option Miss)
  /-- Whether the block is outstanding. -/
  | cancelled (outstanding : Bool)
  deriving Repr, DecidableEq

/-- One call. -/
def perform (t : MissTable) : Call → Except Fault (Reply × MissTable)
  | .add b => .ok (.done, t.add b)
  | .erase b => .ok (.erased (t.get? b), t.erase b)
  | .cancel b => .ok (.cancelled (t.cancel b).1, (t.cancel b).2)
  | .rearm b => .ok (.done, t.rearm b)

/-- The outstanding blocks, and whether the requester of each has withdrawn. -/
abbrev Outstanding : Type := Finmap fun _ : BlockRef => Bool

namespace Outstanding

/-- Takes down whether the requester of a block has withdrawn, if the block is outstanding. -/
def note (f : Outstanding) (b : BlockRef) (cancelled : Bool) : Outstanding :=
  if b ∈ f then f.insert b cancelled else f

/-- Whether the block is a new one, and there is room for it. -/
def Admits (capacity : Nat) (f : Outstanding) (b : BlockRef) : Prop :=
  b ∉ f ∧ f.keys.card < capacity

instance (capacity : Nat) (f : Outstanding) (b : BlockRef) : Decidable (f.Admits capacity b) :=
  inferInstanceAs (Decidable (_ ∧ _))

/-- One call, where there is room for `capacity` blocks. -/
def perform (capacity : Nat) (f : Outstanding) : Call → Except Fault (Reply × Outstanding)
  | .add b => .ok (.done, if f.Admits capacity b then f.insert b false else f)
  | .erase b => .ok (.erased ((f.lookup b).map (⟨b, ·⟩)), f.erase b)
  | .cancel b => .ok (.cancelled (b ∈ f), f.note b true)
  | .rearm b => .ok (.done, f.note b false)

end Outstanding

/-! ## Look-ups -/

theorem block_of_get? (h : t.get? b = some miss) : miss.block = b := by
  have hfind : t.slots.find? (tracks b) = some (some miss) := Option.join_eq_some_iff.mp h
  exact Option.some.inj (tracks_iff.mp (List.find?_some hfind))

theorem isSome_get?_iff : (t.get? b).isSome = true ↔ b ∈ t.blocks := by
  rw [← not_iff_not, Bool.not_eq_true, Option.isSome_eq_false_iff, Option.isNone_iff_eq_none,
    get?_eq_none_iff]

/-- A block that is put into a free slot has a requester that waits. -/
theorem get?_add (hb : b ∉ t.blocks) (hfull : t.isFull = false) :
    (t.add b).get? b = some ⟨b, false⟩ := by
  have hmem : b ∈ (t.add b).blocks := (blocks_add hb hfull).mem_iff.mpr List.mem_cons_self
  have hno : t.contains b = false := Bool.not_eq_true _ ▸ mt contains_iff.mp hb
  obtain ⟨miss, hmiss⟩ := Option.isSome_iff_exists.mp (isSome_get? hmem)
  have hblock := block_of_get? hmiss
  have hwaits : (t.add b).withdrawn b = false := withdrawn_add hno
  rw [withdrawn, hmiss] at hwaits
  rw [hmiss]
  obtain ⟨block, cancelled⟩ := miss
  obtain rfl : block = b := hblock
  obtain rfl : cancelled = false := hwaits
  rfl

theorem get?_erase (hn : t.blocks.Nodup) : (t.erase b).get? b = none := by
  rw [get?_eq_none_iff, (blocks_erase_filter hn b).mem_iff, List.mem_filter]
  exact fun h => of_decide_eq_true h.2 rfl

/-- Without a free slot nothing is put into the table. -/
theorem add_of_isFull (hfull : t.isFull = true) : t.add b = t := by
  rw [add]
  split
  · rfl
  · rw [updateFirst_of_all_not]
    intro slot hslot
    have hsome := List.all_eq_true.mp hfull slot hslot
    cases slot with
    | none => cases hsome
    | some miss => rfl

theorem add_of_mem (hb : b ∈ t.blocks) : t.add b = t := by
  rw [add, if_pos (contains_iff.mpr hb)]

/-! ## The table represents the map -/

/-- The table has so many slots, no block in two of them, and what the map has in one of them. -/
structure Represents (capacity : Nat) (t : MissTable) (f : Outstanding) : Prop where
  capacity : t.capacity = capacity
  nodup : t.blocks.Nodup
  lookup : ∀ b, f.lookup b = (t.get? b).map (·.cancelled)

namespace Represents

variable {capacity : Nat} {f : Outstanding}

theorem mem_iff (h : Represents capacity t f) (b : BlockRef) : b ∈ f ↔ b ∈ t.blocks := by
  rw [← Finmap.lookup_isSome, h.lookup, Option.isSome_map, isSome_get?_iff]

theorem keys_card (h : Represents capacity t f) : f.keys.card = t.blocks.length := by
  have hkeys : f.keys = t.blocks.toFinset := by
    ext b
    rw [Finmap.mem_keys, h.mem_iff, List.mem_toFinset]
  rw [hkeys, List.toFinset_card_of_nodup h.nodup]

theorem keys_card_le (h : Represents capacity t f) : f.keys.card ≤ capacity := by
  rw [h.keys_card, ← h.capacity]
  exact t.length_blocks_le

theorem isFull_iff (h : Represents capacity t f) : t.isFull = true ↔ f.keys.card = capacity := by
  rw [MissTable.isFull_iff, h.keys_card, h.capacity]

theorem admits_iff (h : Represents capacity t f) :
    f.Admits capacity b ↔ b ∉ t.blocks ∧ t.isFull = false := by
  have hle := h.keys_card_le
  rw [Outstanding.Admits, h.mem_iff, ← Bool.not_eq_true, h.isFull_iff]
  exact and_congr_right fun _ => ⟨Nat.ne_of_lt, fun hne => Nat.lt_of_le_of_ne hle hne⟩

/-- A block that has a slot already, or finds none free, is not put into the table. -/
theorem add_of_not_admits (h : Represents capacity t f) (hb : ¬f.Admits capacity b) :
    t.add b = t := by
  by_cases hmem : b ∈ t.blocks
  · exact add_of_mem hmem
  · apply add_of_isFull
    rw [← Bool.not_eq_false]
    exact fun hfull => hb (h.admits_iff.mpr ⟨hmem, hfull⟩)

/-! ## One call -/

theorem add (h : Represents capacity t f) (b : BlockRef) :
    Represents capacity (t.add b) (if f.Admits capacity b then f.insert b false else f) := by
  by_cases hadmits : f.Admits capacity b
  · obtain ⟨hb, hfull⟩ := h.admits_iff.mp hadmits
    rw [if_pos hadmits]
    refine ⟨(capacity_add t b).trans h.capacity, ?_, ?_⟩
    · exact (blocks_add hb hfull).nodup_iff.mpr (List.nodup_cons.mpr ⟨hb, h.nodup⟩)
    · intro b'
      by_cases hb' : b' = b
      · rw [hb', Finmap.lookup_insert, get?_add hb hfull]
        rfl
      · rw [Finmap.lookup_insert_of_ne _ hb', get?_add_of_ne hb', h.lookup]
  · rw [if_neg hadmits, h.add_of_not_admits hadmits]
    exact h

theorem erase (h : Represents capacity t f) (b : BlockRef) :
    Represents capacity (t.erase b) (f.erase b) where
  capacity := (capacity_erase t b).trans h.capacity
  nodup := (blocks_erase_filter h.nodup b).nodup_iff.mpr (h.nodup.filter _)
  lookup := by
    intro b'
    by_cases hb' : b' = b
    · rw [hb', Finmap.lookup_erase, get?_erase h.nodup]
      rfl
    · rw [Finmap.lookup_erase_ne hb', get?_erase_of_ne hb', h.lookup]

theorem mark (h : Represents capacity t f) (b : BlockRef) (cancelled : Bool) :
    Represents capacity (t.mark b cancelled) (f.note b cancelled) where
  capacity := (capacity_mark t b cancelled).trans h.capacity
  nodup := by
    rw [blocks_mark]
    exact h.nodup
  lookup := by
    intro b'
    rw [Outstanding.note]
    by_cases hb' : b' = b
    · rw [hb', get?_mark, Option.map_map]
      split
      · next hb =>
        obtain ⟨miss, hmiss⟩ := Option.isSome_iff_exists.mp (isSome_get? ((h.mem_iff b).mp hb))
        rw [Finmap.lookup_insert, hmiss]
        rfl
      · next hb =>
        rw [Finmap.lookup_eq_none.mpr hb, get?_eq_none_iff.mpr (mt (h.mem_iff b).mpr hb)]
        rfl
    · rw [get?_mark_of_ne hb', ← h.lookup]
      split
      · exact Finmap.lookup_insert_of_ne _ hb'
      · rfl

/-- What is known of a block is what the map says of it. -/
theorem get?_eq (h : Represents capacity t f) (b : BlockRef) :
    t.get? b = (f.lookup b).map (⟨b, ·⟩) := by
  rw [h.lookup, Option.map_map]
  cases hget : t.get? b with
  | none => rfl
  | some miss => rw [← block_of_get? hget]; rfl

theorem contains_eq (h : Represents capacity t f) (b : BlockRef) :
    t.contains b = decide (b ∈ f) := by
  rw [Bool.eq_iff_iff, contains_iff, decide_eq_true_iff, h.mem_iff]

/-- Table and map give the same reply to a call, and the table represents the map afterwards. -/
theorem perform (h : Represents capacity t f) (call : Call) :
    Ends (sideBySide MissTable.perform (Outstanding.perform capacity) (t, f) call) Never fun r =>
      r.1.1 = r.1.2 ∧ Represents capacity r.2.1 r.2.2 := by
  cases call with
  | add b => exact Ends.pure' ⟨rfl, h.add b⟩
  | erase b => exact Ends.pure' ⟨congrArg Reply.erased (h.get?_eq b), h.erase b⟩
  | cancel b => exact Ends.pure' ⟨congrArg Reply.cancelled (h.contains_eq b), h.mark b true⟩
  | rearm b => exact Ends.pure' ⟨rfl, h.mark b false⟩

end Represents

/-! ## Slots -/

/-- A slot of the block holds something else now, and no other slot has changed. -/
def Rewritten (t : MissTable) (b : BlockRef) (new : Option Miss) (t' : MissTable) : Prop :=
  ∃ i miss, t.slots[i]? = some (some miss) ∧ miss.block = b ∧ t'.slots = t.slots.set i new

/-- The free slot of the lowest number is taken, and no other slot has changed. -/
def Taken (t : MissTable) (new : Miss) (t' : MissTable) : Prop :=
  ∃ i, t.slots[i]? = some none ∧ (∀ j < i, ∃ miss, t.slots[j]? = some (some miss))
    ∧ t'.slots = t.slots.set i (some new)

/-- The slots of other blocks are the same. -/
def LeavesOthers (t : MissTable) (b : BlockRef) (t' : MissTable) : Prop :=
  ∀ (i : Nat) (miss : Miss), miss.block ≠ b →
    (t'.slots[i]? = some (some miss) ↔ t.slots[i]? = some (some miss))

/-- What a call does to the slots. -/
def Changes (capacity : Nat) (f : Outstanding) (t t' : MissTable) : Call → Prop
  | .add b => if f.Admits capacity b then t.Taken ⟨b, false⟩ t' else t' = t
  | .erase b => if b ∈ f then t.Rewritten b none t' else t' = t
  | .cancel b => if b ∈ f then t.Rewritten b (some ⟨b, true⟩) t' else t' = t
  | .rearm b => if b ∈ f then t.Rewritten b (some ⟨b, false⟩) t' else t' = t

theorem leavesOthers_self (t : MissTable) (b : BlockRef) : t.LeavesOthers b t :=
  fun _ _ _ => Iff.rfl

/-- A slot that does not hold another block, before and after. -/
theorem leavesOthers_of_set {i : Nat} {old new : Option Miss} (hold : t.slots[i]? = some old)
    (hset : t'.slots = t.slots.set i new) (hbefore : ∀ miss, old = some miss → miss.block = b)
    (hafter : ∀ miss, new = some miss → miss.block = b) : t.LeavesOthers b t' := by
  intro j miss hne
  rw [hset]
  by_cases hj : i = j
  · subst hj
    rw [List.getElem?_set_self (List.getElem?_eq_some_iff.mp hold).1, hold]
    constructor
    · intro h
      exact absurd (hafter miss (Option.some.inj h)) hne
    · intro h
      exact absurd (hbefore miss (Option.some.inj h)) hne
  · rw [List.getElem?_set_ne hj]

theorem Rewritten.leavesOthers {new : Option Miss} (h : t.Rewritten b new t')
    (hnew : ∀ miss, new = some miss → miss.block = b) : t.LeavesOthers b t' := by
  obtain ⟨i, old, hold, hblock, hset⟩ := h
  apply leavesOthers_of_set hold hset _ hnew
  intro miss hmiss
  rw [← Option.some.inj hmiss]
  exact hblock

theorem Taken.leavesOthers {new : Miss} (h : t.Taken new t') : t.LeavesOthers new.block t' := by
  obtain ⟨i, hfree, -, hset⟩ := h
  exact leavesOthers_of_set hfree hset (fun _ hmiss => by cases hmiss)
    fun miss hmiss => congrArg Miss.block (Option.some.inj hmiss).symm

theorem rewritten (hb : b ∈ t.blocks) (change : Option Miss → Option Miss) {new : Option Miss}
    (hchange : ∀ miss, miss.block = b → change (some miss) = new) :
    t.Rewritten b new ⟨updateFirst (tracks b) change t.slots⟩ := by
  obtain ⟨i, slot, hfind, hslot, -, hset⟩ := updateFirst_eq_set change (mem_blocks.mp hb)
  have hwaits := tracks_iff.mp (List.find?_some hfind)
  obtain ⟨miss, rfl, hblock⟩ := Option.map_eq_some_iff.mp hwaits
  refine ⟨i, miss, hslot, hblock, ?_⟩
  rw [hset, hchange miss hblock]

theorem taken (hb : b ∉ t.blocks) (hfull : t.isFull = false) :
    t.Taken ⟨b, false⟩ (t.add b) := by
  have hfree : ∃ slot ∈ t.slots, slot.isNone = true := by
    obtain ⟨slot, hmem, hslot⟩ := List.all_eq_false.mp hfull
    exact ⟨slot, hmem, by cases slot <;> simp_all⟩
  obtain ⟨i, slot, hfind, hslot, hbefore, hset⟩ :=
    updateFirst_eq_set (fun _ => some { block := b, cancelled := false }) hfree
  obtain rfl := Option.isNone_iff_eq_none.mp (List.find?_some hfind)
  have hi : i < t.slots.length := (List.getElem?_eq_some_iff.mp hslot).1
  refine ⟨i, hslot, ?_, ?_⟩
  · intro j hj
    have hlt := Nat.lt_trans hj hi
    have htaken := hbefore j hj t.slots[j] (List.getElem?_eq_getElem hlt)
    obtain ⟨miss, hmiss⟩ := Option.isSome_iff_exists.mp (Option.isNone_eq_false_iff.mp htaken)
    exact ⟨miss, by rw [List.getElem?_eq_getElem hlt, hmiss]⟩
  · rw [MissTable.add, if_neg (mt contains_iff.mp hb), hset]

namespace Represents

variable {capacity : Nat} {f : Outstanding}

theorem changes_add (h : Represents capacity t f) (b : BlockRef) :
    t.Changes capacity f (t.add b) (.add b) := by
  rw [Changes]
  split
  · next hadmits =>
    obtain ⟨hb, hfull⟩ := h.admits_iff.mp hadmits
    exact taken hb hfull
  · next hadmits => exact h.add_of_not_admits hadmits

theorem changes_of_block (h : Represents capacity t f) (b : BlockRef)
    (change : Option Miss → Option Miss) {new : Option Miss}
    (hchange : ∀ miss : Miss, miss.block = b → change (some miss) = new) :
    if b ∈ f then t.Rewritten b new ⟨updateFirst (tracks b) change t.slots⟩
    else MissTable.mk (updateFirst (tracks b) change t.slots) = t := by
  split
  · next hb => exact rewritten ((h.mem_iff b).mp hb) change hchange
  · next hb => rw [updateFirst_of_not_mem (mt (h.mem_iff b).mpr hb)]

theorem changes_mark (h : Represents capacity t f) (b : BlockRef) (cancelled : Bool) :
    if b ∈ f then t.Rewritten b (some ⟨b, cancelled⟩) (t.mark b cancelled)
    else t.mark b cancelled = t := by
  apply h.changes_of_block
  rintro ⟨block, before⟩ rfl
  rfl

theorem changes (h : Represents capacity t f) (call : Call) :
    Ends (t.perform call) Never fun r => t.Changes capacity f r.2 call := by
  cases call with
  | add b => exact Ends.pure' (h.changes_add b)
  | erase b => exact Ends.pure' (h.changes_of_block b _ fun _ _ => rfl)
  | cancel b => exact Ends.pure' (h.changes_mark b true)
  | rearm b => exact Ends.pure' (h.changes_mark b false)

end Represents

theorem Changes.leavesOthers {capacity : Nat} {f : Outstanding} {call : Call}
    (h : t.Changes capacity f t' call) : t.LeavesOthers call.block t' := by
  have hblock : ∀ {b : BlockRef} {new : Option Miss},
      (if b ∈ f then t.Rewritten b new t' else t' = t) →
      (∀ miss, new = some miss → miss.block = b) → t.LeavesOthers b t' := by
    intro b new h hnew
    split at h
    · exact h.leavesOthers hnew
    · rw [h]
      exact leavesOthers_self t b
  cases call with
  | add b =>
    rw [Changes] at h
    split at h
    · exact h.leavesOthers
    · rw [h]
      exact leavesOthers_self t b
  | erase b => exact hblock h fun _ hmiss => by cases hmiss
  | cancel b => exact hblock h fun _ hmiss => congrArg Miss.block (Option.some.inj hmiss).symm
  | rearm b => exact hblock h fun _ hmiss => congrArg Miss.block (Option.some.inj hmiss).symm

/-! ## What the slots show -/

/-- Slots that hold blocks hold different ones. -/
theorem slots_distinct (hn : t.blocks.Nodup) {i j : Nat} {miss other : Miss}
    (hi : t.slots[i]? = some (some miss)) (hj : t.slots[j]? = some (some other))
    (hblock : miss.block = other.block) : i = j := by
  have hapart := List.pairwise_iff_getElem.mp (List.pairwise_filterMap.mp hn)
  obtain ⟨hi, hmiss⟩ := List.getElem?_eq_some_iff.mp hi
  obtain ⟨hj, hother⟩ := List.getElem?_eq_some_iff.mp hj
  have hwaits : waitsFor t.slots[i] = some miss.block := by rw [hmiss]; rfl
  have hwaits' : waitsFor t.slots[j] = some other.block := by rw [hother]; rfl
  rcases Nat.lt_trichotomy i j with hlt | heq | hlt
  · exact absurd hblock (hapart i j hi hj hlt _ hwaits _ hwaits')
  · exact heq
  · exact absurd hblock.symm (hapart j i hj hi hlt _ hwaits' _ hwaits)

theorem mem_slots_iff (hn : t.blocks.Nodup) :
    some miss ∈ t.slots ↔ t.get? miss.block = some miss := by
  constructor
  · intro hmem
    have htracks : tracks miss.block (some miss) = true := tracks_iff.mpr rfl
    obtain ⟨found, hfound⟩ := Option.isSome_iff_exists.mp
      (isSome_get? (mem_blocks.mpr ⟨_, hmem, htracks⟩))
    have hfind : t.slots.find? (tracks miss.block) = some (some found) :=
      Option.join_eq_some_iff.mp hfound
    obtain ⟨i, hi⟩ := List.mem_iff_getElem?.mp hmem
    obtain ⟨j, hj⟩ := List.mem_iff_getElem?.mp (List.mem_of_find?_eq_some hfind)
    obtain rfl := slots_distinct hn hi hj (block_of_get? hfound).symm
    rw [hfound]
    exact Option.some.inj (hj.symm.trans hi)
  · intro hget
    exact List.mem_of_find?_eq_some (Option.join_eq_some_iff.mp hget)

/-- What the table tells of the map: it has at most one slot for a block, and one for each block of
the map, and its questions are answered as the map answers them. -/
structure Shows (capacity : Nat) (t : MissTable) (f : Outstanding) : Prop where
  capacity_eq : t.capacity = capacity
  card_le : f.keys.card ≤ capacity
  distinct : ∀ (i j : Nat) (miss other : Miss), t.slots[i]? = some (some miss) →
    t.slots[j]? = some (some other) → miss.block = other.block → i = j
  lookup_iff : ∀ b cancelled, f.lookup b = some cancelled ↔ some ⟨b, cancelled⟩ ∈ t.slots
  contains_eq : ∀ b, t.contains b = decide (b ∈ f)
  size_eq : t.size = f.keys.card
  isEmpty_iff : t.isEmpty = true ↔ f = ∅
  isFull_iff : t.isFull = true ↔ f.keys.card = capacity

theorem Represents.shows {capacity : Nat} {f : Outstanding} (h : Represents capacity t f) :
    Shows capacity t f where
  capacity_eq := h.capacity
  card_le := h.keys_card_le
  distinct _ _ _ _ := slots_distinct h.nodup
  lookup_iff b cancelled := by
    rw [mem_slots_iff h.nodup, h.get?_eq]
    cases f.lookup b <;> simp
  contains_eq := h.contains_eq
  size_eq := by rw [MissTable.size_eq, h.keys_card]
  isEmpty_iff := by
    rw [isEmpty, MissTable.size_eq, beq_iff_eq, ← h.keys_card, Finset.card_eq_zero]
    constructor
    · intro hkeys
      apply Finmap.ext_lookup
      intro b
      rw [Finmap.lookup_empty, Finmap.lookup_eq_none, ← Finmap.mem_keys, hkeys]
      exact Finset.notMem_empty b
    · rintro rfl
      rfl
  isFull_iff := h.isFull_iff

/-! ## Runs -/

theorem empty_represents (capacity : Nat) : Represents capacity (empty capacity) ∅ where
  capacity := List.length_replicate
  nodup := by
    rw [blocks_empty]
    exact List.nodup_nil
  lookup b := by
    rw [Finmap.lookup_empty, get?_eq_none_iff.mpr]
    · rfl
    · rw [blocks_empty]
      exact List.not_mem_nil

theorem run_represents (capacity : Nat) (calls : List Call) :
    Ends (record (sideBySide perform (Outstanding.perform capacity)) (empty capacity, ∅) calls)
      Never fun r => (∀ e ∈ r.1, e.2.1 = e.2.2) ∧ Represents capacity r.2.1 r.2.2 := by
  apply Ends.record (fun _ (past : List (Call × Reply × Reply)) (s : MissTable × Outstanding) =>
      (∀ e ∈ past, e.2.1 = e.2.2) ∧ Represents capacity s.1 s.2) ?_ calls [] _
    ⟨List.forall_mem_nil _, empty_represents capacity⟩
  intro call _ past s h
  apply (h.2.perform call).weaken
  intro r hr
  exact ⟨List.forall_mem_cons.mpr ⟨hr.1, h.1⟩, hr.2⟩

/-- **A map of bounded size.** A table without any block and an empty map with room for as many
blocks take the same calls. No call faults, and both give the same replies. Then the table has one
slot for each block of the map, with what the map says of it, and one more call changes the slots as
it changes the map: it takes the first free slot, or it rewrites the slot of its block, or it
changes nothing. -/
theorem bounded_map (capacity : Nat) (calls : List Call) :
    Ends (record (sideBySide perform (Outstanding.perform capacity)) (empty capacity, ∅) calls)
      Never fun (history, t, f) =>
        (∀ e ∈ history, e.2.1 = e.2.2) ∧ Shows capacity t f
          ∧ ∀ call, Ends (t.perform call) Never fun (_, t') =>
            t.Changes capacity f t' call ∧ t.LeavesOthers call.block t' := by
  apply (run_represents capacity calls).weaken
  intro r hr
  obtain ⟨history, t, f⟩ := r
  obtain ⟨hreplies, hrepresents⟩ := hr
  refine ⟨hreplies, hrepresents.shows, ?_⟩
  intro call
  apply (hrepresents.changes call).weaken
  intro r hr
  exact ⟨hr, hr.leavesOthers⟩

/-- A slot that has been freed is taken again before those behind it. -/
example : ((((empty 3).add ⟨0, .data⟩).add ⟨4, .data⟩).erase ⟨0, .data⟩).add ⟨8, .data⟩
    = ⟨[some ⟨⟨8, .data⟩, false⟩, some ⟨⟨4, .data⟩, false⟩, none]⟩ := by
  decide

end MissTable

end MemoryHierarchy
