import MemoryHierarchy.MissTable

/-!
The miss table as the list of the blocks it waits for.

`blocks` lists them slot by slot. Every operation is one on that list: `add` puts a block on it
(`blocks_add`), `erase` takes one off (`blocks_erase`), and noting a withdrawal or its
repeal leaves it as it is (`blocks_mark`). The slots that track a block are as many as
its occurrences on the list (`countP_tracks`). A block that was asked for last has not been
withdrawn (`withdrawn_add`, `withdrawn_rearm`); an operation on one block leaves what is known
of another (`get?_mark_of_ne`), and `withdrawals` counts those that have been withdrawn.
-/

namespace MemoryHierarchy

/-- The first element that passes the test changes, between those before it and those behind. -/
theorem updateFirst_eq_append {α : Type} {test : α → Bool} (change : α → α) :
    ∀ {l : List α}, (∃ a ∈ l, test a = true) →
      ∃ front a back, l = front ++ a :: back ∧ (∀ b ∈ front, test b = false) ∧ test a = true
        ∧ updateFirst test change l = front ++ change a :: back
  | [], h => by
    obtain ⟨a, ha, -⟩ := h
    cases ha
  | a :: rest, h => by
    rw [updateFirst]
    -- Either the first element is the one that changes, or it stays in front of it.
    by_cases ha : test a = true
    · rw [if_pos ha]
      exact ⟨[], a, rest, rfl, List.forall_mem_nil _, ha, rfl⟩
    · obtain ⟨b, hb, htest⟩ := h
      have hrest : b ∈ rest := by
        rcases List.mem_cons.mp hb with rfl | hb
        · exact absurd htest ha
        · exact hb
      obtain ⟨front, c, back, heq, hfront, hc, hupdate⟩ :=
        updateFirst_eq_append change ⟨b, hrest, htest⟩
      rw [if_neg ha]
      refine ⟨a :: front, c, back, ?_, ?_, hc, ?_⟩
      · rw [heq, List.cons_append]
      · exact List.forall_mem_cons.mpr ⟨Bool.not_eq_true _ ▸ ha, hfront⟩
      · rw [hupdate, List.cons_append]

/-- The first element that passes the test changes in its place. -/
theorem updateFirst_eq_set {α : Type} {test : α → Bool} (change : α → α) {l : List α}
    (h : ∃ a ∈ l, test a = true) :
    ∃ i a, l.find? test = some a ∧ l[i]? = some a
      ∧ (∀ j < i, ∀ b, l[j]? = some b → test b = false)
      ∧ updateFirst test change l = l.set i (change a) := by
  obtain ⟨front, a, back, rfl, hfront, ha, hupdate⟩ := updateFirst_eq_append change h
  have hnone : front.find? test = none := by
    rw [List.find?_eq_none]
    exact fun b hb => Bool.eq_false_iff.mp (hfront b hb)
  refine ⟨front.length, a, ?_, ?_, ?_, ?_⟩
  · rw [List.find?_append, hnone, List.find?_cons_of_pos ha]
    rfl
  · rw [List.getElem?_append_right (Nat.le_refl _), Nat.sub_self, List.getElem?_cons_zero]
  · intro j hj b hb
    rw [List.getElem?_append_left hj] at hb
    exact hfront b (List.mem_of_getElem? hb)
  · rw [hupdate, List.set_append_right _ _ (Nat.le_refl _), Nat.sub_self, List.set_cons_zero]

namespace MissTable

/-- The block that a slot waits for. -/
def waitsFor (slot : Option Miss) : Option BlockRef := slot.map (·.block)

/-- The outstanding blocks, slot by slot. -/
def blocks (t : MissTable) : List BlockRef := t.slots.filterMap waitsFor

variable {t : MissTable} {b : BlockRef} {slot : Option Miss}

theorem tracks_iff : tracks b slot = true ↔ waitsFor slot = some b := by
  cases slot with
  | none => simp [tracks, waitsFor]
  | some miss => simp [tracks, waitsFor]

@[simp] theorem blocks_empty (n : Nat) : (empty n).blocks = [] := by
  rw [blocks, empty, List.filterMap_replicate]
  rfl

theorem length_blocks_le (t : MissTable) : t.blocks.length ≤ t.capacity :=
  List.length_filterMap_le _ _

theorem size_eq (t : MissTable) : t.size = t.blocks.length := by
  rw [size, blocks, List.length_filterMap_eq_countP]
  congr 1
  funext slot
  cases slot <;> rfl

theorem mem_blocks : b ∈ t.blocks ↔ ∃ slot ∈ t.slots, tracks b slot = true := by
  simp only [blocks, List.mem_filterMap, tracks_iff]

theorem contains_iff : t.contains b = true ↔ b ∈ t.blocks := by
  rw [contains, List.any_eq_true, mem_blocks]

theorem countP_tracks (t : MissTable) (b : BlockRef) :
    t.slots.countP (tracks b) = t.blocks.count b := by
  obtain ⟨slots⟩ := t
  show slots.countP (tracks b) = (slots.filterMap waitsFor).count b
  induction slots with
  | nil => rfl
  | cons slot rest ih =>
    rw [List.countP_cons, List.filterMap_cons, ih]
    cases slot with
    | none => rfl
    | some miss => rw [waitsFor, Option.map_some, List.count_cons]; rfl

theorem contains_of_isEmpty (h : t.isEmpty = true) (b : BlockRef) : t.contains b = false := by
  rw [isEmpty, size_eq, beq_iff_eq, List.length_eq_zero_iff] at h
  rw [← Bool.not_eq_true, contains_iff, h]
  exact List.not_mem_nil

theorem isFull_of_isEmpty (h : t.isEmpty = true) (hpos : 1 ≤ t.capacity) : t.isFull = false := by
  rw [← Bool.not_eq_true, isFull, List.all_eq_true, ← List.countP_eq_length]
  intro hfull
  have hnone : t.slots.countP Option.isSome = 0 := beq_iff_eq.mp h
  rw [hnone] at hfull
  exact absurd hfull (Nat.ne_of_lt hpos)

/-! ## Operations -/

/-- Every operation changes at most one slot. -/
theorem capacity_updateFirst (test : Option Miss → Bool) (change : Option Miss → Option Miss)
    (t : MissTable) : (MissTable.mk (updateFirst test change t.slots)).capacity = t.capacity :=
  length_updateFirst test change t.slots

@[simp] theorem capacity_add (t : MissTable) (b : BlockRef) : (t.add b).capacity = t.capacity := by
  rw [add]
  split
  · rfl
  · exact capacity_updateFirst _ _ t

@[simp] theorem capacity_erase (t : MissTable) (b : BlockRef) :
    (t.erase b).capacity = t.capacity := capacity_updateFirst _ _ t

@[simp] theorem capacity_mark (t : MissTable) (b : BlockRef) (cancelled : Bool) :
    (t.mark b cancelled).capacity = t.capacity := capacity_updateFirst _ _ t

/-- The block of one slot stands between those of the others. -/
theorem blocks_eq {front back : List (Option Miss)} (h : t.slots = front ++ slot :: back) :
    t.blocks = front.filterMap waitsFor ++ ((waitsFor slot).toList ++ back.filterMap waitsFor) := by
  rw [blocks, h, List.filterMap_append, List.filterMap_cons]
  cases waitsFor slot <;> rfl

theorem blocks_add (hb : b ∉ t.blocks) (hfull : t.isFull = false) :
    (t.add b).blocks.Perm (b :: t.blocks) := by
  have hfree : ∃ slot ∈ t.slots, slot.isNone = true := by
    rw [isFull, List.all_eq_false] at hfull
    obtain ⟨slot, hmem, hslot⟩ := hfull
    exact ⟨slot, hmem, by cases slot <;> simp_all⟩
  obtain ⟨front, slot, back, heq, -, hnone, hupdate⟩ :=
    updateFirst_eq_append (fun _ => some { block := b, cancelled := false }) hfree
  have hcontains : ¬t.contains b = true := fun h => hb (contains_iff.mp h)
  have ht : t.blocks = front.filterMap waitsFor ++ back.filterMap waitsFor := by
    rw [blocks_eq heq, Option.isNone_iff_eq_none.mp hnone]
    rfl
  rw [add, if_neg hcontains, blocks_eq hupdate, ht]
  exact List.perm_middle

theorem blocks_erase (hb : b ∈ t.blocks) : t.blocks.Perm (b :: (t.erase b).blocks) := by
  obtain ⟨front, slot, back, heq, -, htracks, hupdate⟩ :=
    updateFirst_eq_append (fun _ => none) (mem_blocks.mp hb)
  rw [erase, blocks_eq hupdate, blocks_eq heq, tracks_iff.mp htracks]
  exact List.perm_middle

/-- There is no slot of a block that is not outstanding. -/
theorem updateFirst_of_not_mem (hb : b ∉ t.blocks) (change : Option Miss → Option Miss) :
    updateFirst (tracks b) change t.slots = t.slots := by
  apply updateFirst_of_all_not
  intro slot hslot
  rw [← Bool.not_eq_true]
  exact fun htracks => hb (mem_blocks.mpr ⟨slot, hslot, htracks⟩)

theorem blocks_mark (t : MissTable) (b : BlockRef) (cancelled : Bool) :
    (t.mark b cancelled).blocks = t.blocks := by
  by_cases hb : b ∈ t.blocks
  · obtain ⟨front, slot, back, heq, -, -, hupdate⟩ :=
      updateFirst_eq_append (Option.map ({ · with cancelled })) (mem_blocks.mp hb)
    rw [mark, blocks_eq hupdate, blocks_eq heq]
    congr 2
    cases slot <;> rfl
  · rw [mark, updateFirst_of_not_mem hb]

/-! ## Withdrawals -/

/-- Whether the requester of the block has withdrawn. -/
def withdrawn (t : MissTable) (b : BlockRef) : Bool := (t.get? b).any (·.cancelled)

theorem withdrawn_add (h : t.contains b = false) : (t.add b).withdrawn b = false := by
  obtain ⟨slots⟩ := t
  have hno : slots.any (tracks b) = false := h
  rw [add, h, if_neg Bool.false_ne_true, withdrawn, get?]
  show ((updateFirst _ _ slots).find? _).join.any _ = false
  clear h
  induction slots with
  | nil => rfl
  | cons slot rest ih =>
    obtain ⟨hslot, hrest⟩ : tracks b slot = false ∧ rest.any (tracks b) = false := by
      simpa using hno
    cases slot with
    | none => simp [updateFirst, tracks]
    | some miss =>
      rw [updateFirst, if_neg (by simp), List.find?_cons_of_neg (by simp [hslot])]
      exact ih hrest

/-- A look-up does not see the change of an element that it passes over before and after. -/
theorem find?_updateFirst {α : Type} {test p : α → Bool} {change : α → α}
    (h : ∀ a, test a = true → p a = false ∧ p (change a) = false) (l : List α) :
    (updateFirst test change l).find? p = l.find? p := by
  induction l with
  | nil => rfl
  | cons a rest ih =>
    by_cases ha : test a = true
    · obtain ⟨hbefore, hafter⟩ := h a ha
      rw [updateFirst, if_pos ha, List.find?_cons_of_neg (by simp [hafter]),
        List.find?_cons_of_neg (by simp [hbefore])]
    · rw [updateFirst, if_neg ha, List.find?_cons, List.find?_cons, ih]

section OtherBlock

variable {b' : BlockRef}

theorem tracks_of_ne (hne : b' ≠ b) (h : tracks b slot = true) : tracks b' slot = false := by
  rw [← Bool.not_eq_true, tracks_iff, tracks_iff.mp h]
  exact fun heq => hne (Option.some.inj heq).symm

theorem get?_add_of_ne (hne : b' ≠ b) : (t.add b).get? b' = t.get? b' := by
  rw [add]
  split
  · rfl
  · rw [get?, find?_updateFirst, get?]
    intro slot hslot
    rw [Option.isNone_iff_eq_none.mp hslot]
    exact ⟨rfl, tracks_of_ne hne (tracks_iff.mpr rfl)⟩

theorem get?_erase_of_ne (hne : b' ≠ b) : (t.erase b).get? b' = t.get? b' := by
  rw [get?, erase, find?_updateFirst, get?]
  exact fun slot hslot => ⟨tracks_of_ne hne hslot, rfl⟩

theorem get?_mark_of_ne (hne : b' ≠ b) (cancelled : Bool) :
    (t.mark b cancelled).get? b' = t.get? b' := by
  rw [get?, mark, find?_updateFirst, get?]
  intro slot hslot
  refine ⟨tracks_of_ne hne hslot, tracks_of_ne hne ?_⟩
  cases slot <;> exact hslot

end OtherBlock

theorem get?_mark (t : MissTable) (b : BlockRef) (cancelled : Bool) :
    (t.mark b cancelled).get? b = (t.get? b).map ({ · with cancelled }) := by
  obtain ⟨slots⟩ := t
  rw [mark, get?, get?]
  show ((updateFirst _ _ slots).find? _).join = ((slots.find? _).join).map _
  induction slots with
  | nil => rfl
  | cons slot rest ih =>
    by_cases hslot : tracks b slot = true
    · have hmarked : tracks b (slot.map ({ · with cancelled })) = true := by
        cases slot <;> exact hslot
      rw [updateFirst, if_pos hslot, List.find?_cons_of_pos hmarked,
        List.find?_cons_of_pos hslot]
      rfl
    · rw [updateFirst, if_neg hslot, List.find?_cons_of_neg hslot, ih,
        List.find?_cons_of_neg hslot]

theorem isSome_get? (hb : b ∈ t.blocks) : (t.get? b).isSome = true := by
  obtain ⟨slot, hmem, htracks⟩ := mem_blocks.mp hb
  obtain ⟨found, hfind⟩ := Option.isSome_iff_exists.mp
    (List.find?_isSome.mpr ⟨slot, hmem, htracks⟩)
  have hfound : tracks b found = true := List.find?_some hfind
  rw [get?, hfind]
  cases found with
  | none => cases hfound
  | some miss => rfl

/-- Whether the requester has withdrawn is what was noted last. -/
theorem withdrawn_mark (hb : b ∈ t.blocks) (cancelled : Bool) :
    (t.mark b cancelled).withdrawn b = cancelled := by
  obtain ⟨miss, hmiss⟩ := Option.isSome_iff_exists.mp (isSome_get? hb)
  rw [withdrawn, get?_mark, hmiss]
  rfl

theorem withdrawn_rearm (t : MissTable) (b : BlockRef) : (t.rearm b).withdrawn b = false := by
  rw [rearm, withdrawn, get?_mark]
  cases t.get? b <;> rfl

theorem get?_eq_none_iff : t.get? b = none ↔ b ∉ t.blocks := by
  constructor
  · intro hnone hb
    have hsome := isSome_get? hb
    rw [hnone] at hsome
    cases hsome
  · intro hb
    have hnone : t.slots.find? (tracks b) = none := by
      rw [List.find?_eq_none]
      exact fun slot hslot htracks => hb (mem_blocks.mpr ⟨slot, hslot, htracks⟩)
    rw [get?, hnone]
    rfl

/-- A block that is not outstanding has no requester that could have withdrawn. -/
theorem withdrawn_of_not_mem (hb : b ∉ t.blocks) : t.withdrawn b = false := by
  rw [withdrawn, get?_eq_none_iff.mpr hb]
  rfl

/-! ## The number of withdrawals -/

/-- The elements that count are the same, but for the one that changes. -/
theorem countP_updateFirst {α : Type} (test p : α → Bool) (change : α → α) (l : List α) :
    (updateFirst test change l).countP p + ((l.find? test).any p).toNat
      = l.countP p + ((l.find? test).any (p ∘ change)).toNat := by
  induction l with
  | nil => rfl
  | cons a rest ih =>
    by_cases ha : test a = true
    · rw [updateFirst, if_pos ha, List.find?_cons_of_pos ha, List.countP_cons, List.countP_cons]
      simp only [Option.any_some, Function.comp]
      cases p a <;> cases p (change a) <;> simp
    · rw [updateFirst, if_neg ha, List.find?_cons_of_neg ha, List.countP_cons, List.countP_cons]
      omega

/-- Whether the requester of the block in a slot has withdrawn. -/
def isWithdrawn (slot : Option Miss) : Bool := slot.any (·.cancelled)

/-- How many outstanding blocks have a requester that has withdrawn. -/
def withdrawals (t : MissTable) : Nat := t.slots.countP isWithdrawn

theorem withdrawn_eq (t : MissTable) (b : BlockRef) :
    t.withdrawn b = (t.slots.find? (tracks b)).any isWithdrawn := by
  rw [withdrawn, get?]
  cases t.slots.find? (tracks b) <;> rfl

@[simp] theorem withdrawals_empty (n : Nat) : (empty n).withdrawals = 0 := by
  rw [withdrawals, empty, List.countP_replicate]
  rfl

theorem withdrawals_add (t : MissTable) (b : BlockRef) :
    (t.add b).withdrawals = t.withdrawals := by
  rw [add]
  split
  · rfl
  · have hcount := countP_updateFirst Option.isNone isWithdrawn
      (fun _ => some { block := b, cancelled := false }) t.slots
    have hfree : (t.slots.find? Option.isNone).any isWithdrawn = false := by
      cases hfind : t.slots.find? Option.isNone with
      | none => rfl
      | some slot =>
        rw [Option.isNone_iff_eq_none.mp (List.find?_some hfind)]
        rfl
    have hnew : (t.slots.find? Option.isNone).any
        (isWithdrawn ∘ fun _ => some { block := b, cancelled := false }) = false := by
      cases t.slots.find? Option.isNone <;> rfl
    rw [hfree, hnew] at hcount
    exact hcount

/-- A withdrawal ends when its block arrives. -/
theorem withdrawals_erase (t : MissTable) (b : BlockRef) :
    (t.erase b).withdrawals + (t.withdrawn b).toNat = t.withdrawals := by
  have hcount := countP_updateFirst (tracks b) isWithdrawn (fun _ => none) t.slots
  have hnew : (t.slots.find? (tracks b)).any (isWithdrawn ∘ fun _ => none) = false := by
    cases t.slots.find? (tracks b) <;> rfl
  rw [hnew, ← withdrawn_eq] at hcount
  exact hcount

theorem withdrawals_mark_le (t : MissTable) (b : BlockRef) (cancelled : Bool) :
    (t.mark b cancelled).withdrawals ≤ t.withdrawals + (t.contains b && cancelled).toNat := by
  have hcount := countP_updateFirst (tracks b) isWithdrawn (Option.map ({ · with cancelled }))
    t.slots
  have hnew : (t.slots.find? (tracks b)).any
        (isWithdrawn ∘ Option.map ({ · with cancelled })) = (t.contains b && cancelled) := by
    cases hfind : t.slots.find? (tracks b) with
    | none =>
      have hno : t.contains b = false := List.any_eq_false.mpr (List.find?_eq_none.mp hfind)
      rw [hno]
      rfl
    | some slot =>
      have htracks : tracks b slot = true := List.find?_some hfind
      have hthere : t.contains b = true :=
        List.any_eq_true.mpr ⟨slot, List.mem_of_find?_eq_some hfind, htracks⟩
      rw [hthere]
      cases slot with
      | none => cases htracks
      | some miss => rfl
  rw [hnew] at hcount
  exact Nat.le_of_add_right_le (Nat.le_of_eq hcount)

/-! ## Slots -/

theorem isFull_iff : t.isFull = true ↔ t.blocks.length = t.capacity := by
  rw [isFull, List.all_eq_true, ← List.countP_eq_length, ← size_eq]
  rfl

/-- Of blocks in one slot each, freeing a slot takes out one. -/
theorem blocks_erase_filter (hn : t.blocks.Nodup) (b : BlockRef) :
    (t.erase b).blocks.Perm (t.blocks.filter (· ≠ b)) := by
  by_cases hb : b ∈ t.blocks
  · have herase := blocks_erase hb
    have hnot := (List.nodup_cons.mp (herase.nodup_iff.mp hn)).1
    apply (herase.filter _).trans _ |>.symm
    rw [List.filter_cons_of_neg (by simp), List.filter_eq_self.mpr]
    intro a ha
    exact decide_eq_true fun heq => hnot (heq ▸ ha)
  · rw [erase, updateFirst_of_not_mem hb, List.filter_eq_self.mpr]
    intro a ha
    exact decide_eq_true fun heq => hb (heq ▸ ha)

end MissTable

end MemoryHierarchy
