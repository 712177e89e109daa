import Mathlib.Algebra.GroupWithZero.Nat
import Mathlib.Algebra.Order.BigOperators.Group.List
import Mathlib.Algebra.Order.Group.Nat
import MemoryHierarchy.Proofs.Blocking.Contents
import MemoryHierarchy.Proofs.Recency.Caches

/-!
A cache with more ways has what a cache with fewer ways has.

The argument is one about lists in the order of use. If every call is a use, the list of a set
with fewer ways is the end of the list of the same set with more ways (`Latest`), because a use
moves or appends the same key at the end of both, and the longer list gives up a key only when
the shorter one has given it up before (`Latest.rearrange`, `tagsAfter_latest`). Stores follow their
lists (`run_in_order`), so the cache with more ways hits whenever the other one does, and what
either answers are the contents of one memory (`run_contents`).
-/

namespace MemoryHierarchy

open LineStore

/-! ## Lists in the order of use -/

section Reference

variable {κ : Type} {ways ways' : Nat} {short long : List κ}

/-- `short` is the end of `long`, and all of it while `short` has not reached its `ways`. -/
structure Latest (ways : Nat) (short long : List κ) : Prop where
  length_le : short.length ≤ ways
  exists_front : ∃ front, long = front ++ short ∧ (front ≠ [] → short.length = ways)

theorem Latest.mem (h : Latest ways short long) {k : κ} (hk : k ∈ short) : k ∈ long := by
  obtain ⟨front, rfl, -⟩ := h.exists_front
  exact List.mem_append_right _ hk

variable [DecidableEq κ]

/-- A call that refreshes and takes in puts its key last, whether it is there or not. -/
theorem rearrange_of_uses {u : Use} (hrefreshes : u.refreshes = true) (hadmits : u.admits = true)
    (ways : Nat) (k : κ) (keys : List κ) :
    rearrange ways u k keys
      = (if k ∈ keys then keys.erase k else if keys.length = ways then keys.tail else keys)
        ++ [k] := by
  rw [rearrange, if_pos hrefreshes, if_pos hadmits]
  by_cases hk : k ∈ keys
  · rw [if_pos hk, if_pos hk]
  · rw [if_neg hk, if_neg hk]

/-- Making room for a key that is not in the end of a list costs that end at most its first key. -/
theorem exists_front_of_makeRoom {k first : κ} {rest : List κ} (hk : k ∉ first :: rest)
    (front : List κ) (ways : Nat) :
    ∃ front', (if k ∈ front ++ first :: rest then (front ++ first :: rest).erase k
      else if (front ++ first :: rest).length = ways then (front ++ first :: rest).tail
      else front ++ first :: rest) = front' ++ rest := by
  split
  · next hlong =>
    have hfront : k ∈ front := (List.mem_append.mp hlong).resolve_right hk
    refine ⟨front.erase k ++ [first], ?_⟩
    rw [List.erase_append_left _ hfront, List.append_assoc, List.singleton_append]
  · split
    · cases front with
      | nil => exact ⟨[], rfl⟩
      | cons a front => exact ⟨front ++ [first], by rw [List.append_assoc]; rfl⟩
    · exact ⟨front ++ [first], by rw [List.append_assoc]; rfl⟩

/-- A use of one key keeps the shorter list at the end of the longer one. -/
theorem Latest.rearrange (h : Latest ways short long) (hpos : 0 < ways) (hways : ways ≤ ways')
    (hnodup : long.Nodup) (u u' : Use) (hu : u.refreshes = true ∧ u.admits = true)
    (hu' : u'.refreshes = true ∧ u'.admits = true) (k : κ) :
    Latest ways (rearrange ways u k short) (rearrange ways' u' k long) := by
  obtain ⟨hle, front, rfl, hfull⟩ := h
  rw [rearrange_of_uses hu.1 hu.2, rearrange_of_uses hu'.1 hu'.2]
  by_cases hshort : k ∈ short
  · -- Both lists have the key, in their common part.
    have hfront : k ∉ front := fun hk => List.disjoint_of_nodup_append hnodup hk hshort
    have hlength : (short.erase k ++ [k]).length = short.length := by
      have hpositive := List.length_pos_of_mem hshort
      rw [List.length_append, List.length_erase_of_mem hshort, List.length_singleton]
      omega
    rw [if_pos hshort, if_pos (List.mem_append_right _ hshort), List.erase_append_right _ hfront]
    exact ⟨hlength ▸ hle, front, List.append_assoc _ _ _, fun hne => hlength.trans (hfull hne)⟩
  · rw [if_neg hshort]
    by_cases hroom : short.length = ways
    · -- The shorter list is full, and gives up its first key to the front of the longer one.
      obtain ⟨first, rest, rfl⟩ : ∃ first rest, short = first :: rest :=
        List.exists_cons_of_length_pos (hroom ▸ hpos)
      rw [if_pos hroom, List.tail_cons]
      obtain ⟨front', hfront'⟩ := exists_front_of_makeRoom hshort front ways'
      have hlength : (rest ++ [k]).length = ways := by
        rw [← hroom, List.length_append]
        rfl
      rw [hfront', List.append_assoc]
      exact ⟨Nat.le_of_eq hlength, front', rfl, fun _ => hlength⟩
    · -- The lists are the same, and neither is full.
      obtain rfl : front = [] := by
        by_contra hne
        exact hroom (hfull hne)
      rw [List.nil_append] at hnodup ⊢
      have hroom' : short.length ≠ ways' := by omega
      have hlength : (short ++ [k]).length ≤ ways := by
        rw [List.length_append, List.length_singleton]
        omega
      rw [if_neg hroom, if_neg hshort, if_neg hroom']
      exact ⟨hlength, [], rfl, fun hne => absurd rfl hne⟩

theorem useOrder_nodup (key : Nat → Kind → κ) (ways i : Nat) (uses : List Use) :
    ((useOrder key ways uses).keys i).Nodup := by
  induction uses with
  | nil => exact List.nodup_nil
  | cons u earlier ih =>
    rw [useOrder]
    by_cases hi : i = u.index
    · subst hi
      rw [UseOrder.after_keys_self]
      exact rearrange_nodup ih _ _ _
    · rw [UseOrder.after_keys_of_ne _ _ _ hi]
      exact ih

end Reference

/-! ## Geometries that differ in their ways -/

/-- Two caches that cut addresses up alike, the second with no fewer ways. -/
structure Geometry.Widens (g g' : Geometry) : Prop where
  word : g'.word = g.word
  lineBytes : g'.lineBytes = g.lineBytes
  sets : g'.sets = g.sets
  ways_le : g.ways ≤ g'.ways

namespace Geometry.Widens

variable {g g' : Geometry}

/-- Sizes determine their exponents. -/
theorem exponents_eq (h : g.Widens g') :
    g'.offsetBits = g.offsetBits ∧ g'.indexBits = g.indexBits :=
  ⟨twoPow_inj h.lineBytes, twoPow_inj h.sets⟩

theorem locate_eq (h : g.Widens g') (a : Nat) : g'.locate a = g.locate a := by
  obtain ⟨hoffset, hindex⟩ := h.exponents_eq
  simp only [locate, blockStart, tagShift, tagBits, h.word, hoffset, hindex]

theorem wordsPerLine_eq (h : g.Widens g') : g'.wordsPerLine = g.wordsPerLine := by
  rw [wordsPerLine, wordsPerLine, h.lineBytes, h.word]

theorem blocksAfter_eq (h : g.Widens g') (memory : Memory)
    (past : List BlockingCache.Access) :
    BlockingCache.blocksAfter g' memory past = BlockingCache.blocksAfter g memory past := by
  induction past with
  | nil =>
    funext b
    rw [BlockingCache.blocksAfter, BlockingCache.blocksAfter, BlockingCache.blocksOf,
      BlockingCache.blocksOf, h.lineBytes, h.word, h.wordsPerLine_eq]
  | cons access earlier ih =>
    rw [BlockingCache.blocksAfter, BlockingCache.blocksAfter, ih, h.locate_eq]

end Geometry.Widens

namespace BlockingCache

variable {g g' : Geometry}

/-- The tags of set `i` in the order of use, after some accesses, the latest of them first. -/
def tagsAfter (g : Geometry) (kind : Kind) (accesses : List Access) (i : Nat) : List Nat :=
  (useOrder (fun tag _ => tag) g.ways
    (accesses.map fun access => g.use access.address kind true true)).keys i

/-- Over the same accesses, the list of a set with fewer ways is the end of the list with more. -/
theorem tagsAfter_latest (h : g.Widens g') (kind kind' : Kind) (accesses : List Access) (i : Nat) :
    Latest g.ways (tagsAfter g kind accesses i) (tagsAfter g' kind' accesses i) := by
  rw [tagsAfter, tagsAfter]
  induction accesses with
  | nil => exact ⟨Nat.zero_le _, [], rfl, fun hne => absurd rfl hne⟩
  | cons access earlier ih =>
    have hindex : (g'.use access.address kind' true true).index
        = (g.use access.address kind true true).index := by
      rw [Geometry.use, Geometry.use, h.locate_eq]
    rw [List.map_cons, List.map_cons, useOrder, useOrder]
    by_cases hi : i = (g.use access.address kind true true).index
    · have hnodup := useOrder_nodup (fun tag _ => tag) g'.ways i
        (earlier.map fun access => g'.use access.address kind' true true)
      have hlists := ih.rearrange g.ways_pos h.ways_le hnodup (g.use access.address kind true true)
        (g'.use access.address kind' true true) ⟨rfl, rfl⟩ ⟨rfl, rfl⟩ (g.locate access.address).tag
      have htag : (g'.use access.address kind' true true).tag = (g.locate access.address).tag := by
        rw [Geometry.use, h.locate_eq]
      subst hi
      rw [UseOrder.after_keys_self, ← hindex, UseOrder.after_keys_self, hindex, htag]
      exact hlists
    · rw [UseOrder.after_keys_of_ne _ _ _ hi, UseOrder.after_keys_of_ne _ _ _ (hindex ▸ hi)]
      exact ih

/-! ## Runs -/

/-- After a run the blocks in the cache are those of the lists, and every answer was right about
the list of its set. -/
theorem run_in_order (g : Geometry) (kind : Kind) (missPenalty : Nat) (port : Port)
    (accesses : List Access) :
    Ends (record Machine.perform ⟨empty g kind missPenalty, port⟩ accesses) (fun _ => True)
      fun r => (∀ a, r.2.cache.contains a = .ok true
          ↔ (g.locate a).tag ∈ tagsAfter g kind (r.1.map Prod.fst) (g.locate a).index)
        ∧ Each (fun past access answer => answer.served.outcome = .hit
          ↔ (g.locate access.address).tag
            ∈ tagsAfter g kind (past.map Prod.fst) (g.locate access.address).index) r.1 := by
  have horder : ∀ past : List (Access × Answer),
      ((usage g kind).order (fun tag _ => tag) g past).keys
        = tagsAfter g kind (past.map Prod.fst) := by
    intro past
    funext i
    rw [tagsAfter, List.map_map]
    rfl
  have hrun : Ends (record Machine.perform ⟨empty g kind missPenalty, port⟩ accesses) _ _ :=
    (usage_keeps g kind 0 False).followed
      ⟨empty_shaped g kind _, rfl, rfl, empty_onePath g kind _, False.elim⟩
      (empty_follows g kind _ _)
  apply (hrun.faults fun _ _ => trivial).weaken
  intro r hr
  obtain ⟨hs, hgeometry, hkind, hp, -⟩ := hr.inv
  constructor
  · intro a
    have hi : (g.use a kind true true).index < r.2.cache.store.geometry.sets := by
      rw [hgeometry]
      exact Geometry.locate_index_lt a
    have hmem := hr.follows.mem_keys_iff hs hi (hp.tells rfl)
    obtain ⟨found, hcontains, hfound⟩ := contains_iff_holds hs a kind
    rw [horder] at hmem
    rw [hgeometry] at hfound
    rw [BlockingCache.contains, hkind, hcontains, Except.ok.injEq]
    exact hfound.trans hmem.symm
  · apply hr.answers.imp
    intro past access answer hright
    have hfound := hright _ rfl
    rw [horder, beq_iff_eq] at hfound
    exact hfound

/-- What two such caches answer after the same accesses is the same word. -/
theorem Tells.value_eq (h : g.Widens g') {memory : Memory} {missPenalty missPenalty' : Nat}
    {past past' : List (Access × Answer)} {access : Access} {answer answer' : Answer}
    (hpast : past.map Prod.fst = past'.map Prod.fst)
    (htold : Tells g memory missPenalty past access answer)
    (htold' : Tells g' memory missPenalty' past' access answer') :
    answer'.served.value = answer.served.value := by
  have hvalue := htold'.value
  rw [h.locate_eq, h.blocksAfter_eq, ← hpast, htold.value] at hvalue
  exact (Option.some.inj hvalue).symm

/-- An answer that is a hit whenever another one is takes no longer. -/
theorem Tells.latency_le {memory memory' : Memory} {missPenalty missPenalty' : Nat}
    {past past' : List (Access × Answer)} {access : Access} {answer answer' : Answer}
    (htold : Tells g memory missPenalty past access answer)
    (htold' : Tells g' memory' missPenalty' past' access answer')
    (hmore : answer.served.outcome = .hit → answer'.served.outcome = .hit)
    (hpenalty : missPenalty' ≤ missPenalty) : answer'.served.latency ≤ answer.served.latency := by
  rw [htold.latency, htold'.latency]
  by_cases hhit : answer.served.outcome = .hit
  · rw [if_pos hhit, if_pos (hmore hhit)]
  · rw [if_neg hhit]
    split
    · exact Nat.zero_le _
    · exact hpenalty

/-- **More ways never hurt.** Two blocking caches cut addresses up alike, and the second has no
fewer ways. They take the same accesses, to blocks that memory has, over memories that are equal in
the beginning. The accesses go through, unless they are more than the clock can count, and

* an access that hits in the first cache hits in the second, and both answer the same word;
* after the accesses every block in the first cache is in the second;
* if a miss of the second costs no more, then neither do the accesses all together. -/
theorem more_ways (g g' : Geometry) (h : g.Widens g') (kind kind' : Kind)
    (missPenalty missPenalty' : Nat) (port port' : Port) (hmemory : port'.memory = port.memory)
    (accesses : List Access)
    (hinside : ∀ access ∈ accesses, port.memory.HasBlock g (g.locate access.address).block) :
    Ends (record Machine.perform ⟨empty g kind missPenalty, port⟩ accesses)
      (fun f => f = .overflow ∧ UInt64.size ≤ accesses.length) fun small =>
        Ends (record Machine.perform ⟨empty g' kind' missPenalty', port'⟩ accesses)
          (fun f => f = .overflow ∧ UInt64.size ≤ accesses.length) fun large =>
            List.Forall₂ (fun e e' => e.1 = e'.1
                ∧ (e.2.served.outcome = .hit → e'.2.served.outcome = .hit)
                ∧ e'.2.served.value = e.2.served.value) small.1 large.1
              ∧ (∀ a, small.2.cache.contains a = .ok true → large.2.cache.contains a = .ok true)
              ∧ (missPenalty' ≤ missPenalty →
                (large.1.map (·.2.served.latency)).sum
                  ≤ (small.1.map (·.2.served.latency)).sum) := by
  have hinside' : ∀ access ∈ accesses,
      port'.memory.HasBlock g' (g'.locate access.address).block := by
    intro access haccess
    rw [hmemory, h.locate_eq, Memory.HasBlock, h.word, h.wordsPerLine_eq]
    exact hinside access haccess
  have hsmall := ((run_contents g kind missPenalty port accesses hinside).also
    (run_in_order g kind missPenalty port accesses)).also (inputs_record _ _ _)
  have hlarge := ((run_contents g' kind' missPenalty' port' accesses hinside').also
    (run_in_order g' kind' missPenalty' port' accesses)).also (inputs_record _ _ _)
  apply hsmall.weaken
  intro small hsmall
  obtain ⟨⟨hkept, hcontains, hhits⟩, hinputs⟩ := hsmall
  apply hlarge.weaken
  intro large hlarge
  obtain ⟨⟨hkept', hcontains', hhits'⟩, hinputs'⟩ := hlarge
  have hcompared : List.Forall₂ (fun e e' => e.1 = e'.1
      ∧ (e.2.served.outcome = .hit → e'.2.served.outcome = .hit)
      ∧ e'.2.served.value = e.2.served.value
      ∧ (missPenalty' ≤ missPenalty → e'.2.served.latency ≤ e.2.served.latency))
      small.1 large.1 := by
    refine Each.forall₂ (R := fun _ answer answer' =>
      (answer.served.outcome = .hit → answer'.served.outcome = .hit)
        ∧ answer'.served.value = answer.served.value
        ∧ (missPenalty' ≤ missPenalty → answer'.served.latency ≤ answer.served.latency)) ?_
      (hinputs.trans hinputs'.symm) (hkept.told.and hhits) (hkept'.told.and hhits')
    intro past past' access answer answer' hpast htold htold'
    obtain ⟨htold, hhit⟩ := htold
    obtain ⟨htold', hhit'⟩ := htold'
    have hmore : answer.served.outcome = .hit → answer'.served.outcome = .hit := by
      rw [hhit, hhit', h.locate_eq, ← hpast]
      exact (tagsAfter_latest h kind kind' _ _).mem
    exact ⟨hmore, htold.value_eq h hpast (hmemory ▸ htold'), htold.latency_le htold' hmore⟩
  refine ⟨hcompared.imp fun e e' he => ⟨he.1, he.2.1, he.2.2.1⟩, ?_, ?_⟩
  · intro a ha
    rw [hcontains', h.locate_eq, hinputs', ← hinputs]
    exact (tagsAfter_latest h kind kind' _ _).mem ((hcontains a).mp ha)
  · intro hpenalty
    apply List.Forall₂.sum_le_sum
    rw [List.forall₂_map_left_iff, List.forall₂_map_right_iff]
    exact (hcompared.imp fun e e' he => he.2.2.2 hpenalty).flip

/-- One way against two: the block of address 0 is read again after another block has come. Only
the cache with two ways still has it, and both answer the word that was written. -/
theorem more_ways_two :
    ∃ (g g' : Geometry) (port : Port) (small large : List (Access × Answer) × Machine),
      g.Widens g'
        ∧ (∀ access ∈ [Access.mk 0 (.write 7), ⟨1, .read⟩, ⟨0, .read⟩],
          port.memory.HasBlock g (g.locate access.address).block)
        ∧ record Machine.perform ⟨empty g .data 10, port⟩ [⟨0, .write 7⟩, ⟨1, .read⟩, ⟨0, .read⟩]
          = .ok small
        ∧ record Machine.perform ⟨empty g' .data 10, port⟩ [⟨0, .write 7⟩, ⟨1, .read⟩, ⟨0, .read⟩]
          = .ok large
        ∧ small.1.map (·.2.served) = [⟨7, .miss, 10⟩, ⟨0, .miss, 10⟩, ⟨7, .miss, 10⟩]
        ∧ large.1.map (·.2.served) = [⟨7, .hit, 0⟩, ⟨0, .miss, 10⟩, ⟨7, .miss, 10⟩]
        ∧ List.Forall₂ (fun e e' => e.1 = e'.1
            ∧ (e.2.served.outcome = .hit → e'.2.served.outcome = .hit)
            ∧ e'.2.served.value = e.2.served.value) small.1 large.1
        ∧ (∀ a, small.2.cache.contains a = .ok true → large.2.cache.contains a = .ok true)
        ∧ (large.1.map (·.2.served.latency)).sum ≤ (small.1.map (·.2.served.latency)).sum := by
  have hwidens : Geometry.Widens ⟨.w8, 0, 0, 0, by decide, by decide, by decide⟩
      ⟨.w8, 0, 0, 1, by decide, by decide, by decide⟩ := ⟨rfl, rfl, rfl, by decide⟩
  have hinside : ∀ access ∈ [Access.mk 0 (.write 7), ⟨1, .read⟩, ⟨0, .read⟩],
      (Port.ofMemory (Memory.zeroed 4 1)).memory.HasBlock
        ⟨.w8, 0, 0, 0, by decide, by decide, by decide⟩
        (Geometry.locate ⟨.w8, 0, 0, 0, by decide, by decide, by decide⟩ access.address).block :=
    List.forall_mem_cons.mpr ⟨⟨_, rfl⟩, List.forall_mem_cons.mpr ⟨⟨_, rfl⟩,
      List.forall_mem_cons.mpr ⟨⟨_, rfl⟩, List.forall_mem_nil _⟩⟩⟩
  have hrun := more_ways _ _ hwidens .data .data 10 10 (Port.ofMemory (Memory.zeroed 4 1))
    (Port.ofMemory (Memory.zeroed 4 1)) rfl _ hinside
  have hsmall : (record Machine.perform
      ⟨empty ⟨.w8, 0, 0, 0, by decide, by decide, by decide⟩ .data 10,
        Port.ofMemory (Memory.zeroed 4 1)⟩
      [⟨0, .write 7⟩, ⟨1, .read⟩, ⟨0, .read⟩]).toOption.map (·.1.map (·.2.served))
      = some [⟨7, .miss, 10⟩, ⟨0, .miss, 10⟩, ⟨7, .miss, 10⟩] := by decide +kernel
  have hlarge : (record Machine.perform
      ⟨empty ⟨.w8, 0, 0, 1, by decide, by decide, by decide⟩ .data 10,
        Port.ofMemory (Memory.zeroed 4 1)⟩
      [⟨0, .write 7⟩, ⟨1, .read⟩, ⟨0, .read⟩]).toOption.map (·.1.map (·.2.served))
      = some [⟨7, .hit, 0⟩, ⟨0, .miss, 10⟩, ⟨7, .miss, 10⟩] := by decide +kernel
  obtain ⟨small, hsmallRun, hsmallServed, hrun⟩ := hrun.evaluated hsmall
  obtain ⟨large, hlargeRun, hlargeServed, hcompared, hcontains, hlatency⟩ := hrun.evaluated hlarge
  exact ⟨_, _, _, small, large, hwidens, hinside, hsmallRun, hlargeRun, hsmallServed,
    hlargeServed, hcompared, hcontains, hlatency (Nat.le_refl 10)⟩

end BlockingCache

end MemoryHierarchy
