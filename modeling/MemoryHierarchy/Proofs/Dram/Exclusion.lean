import Mathlib.Data.List.Nodup
import Mathlib.Data.List.Perm.Lattice
import MemoryHierarchy.Proofs.Dram.Steps

/-!
No two started requests ever meet on a bus or a bank.

`Sound` is the invariant: the reservations are those of the started requests, numbers are never
given twice, and the started requests are pairwise free of conflicts. Queueing, retiring and
starting keep it, so every run from an idle controller does (`run_sound`), and such a run stops
only where a number does not fit its word.
-/

namespace MemoryHierarchy.Dram

/-- Planning anew changes nothing that a function of the other fields sees. -/
theorem map_replanned {α : Type} {f : Request → α}
    (hf : ∀ r status plan, f { r with status, plan } = f r) {rs ss : List Request}
    (h : List.Forall₂ Controller.Replanned rs ss) : ss.map f = rs.map f := by
  induction h with
  | nil => rfl
  | cons hr _ ih =>
    obtain ⟨status, plan, rfl⟩ := hr
    rw [List.map_cons, List.map_cons, ih, hf]

namespace Controller

/-- What is asked of the controller. -/
inductive Call where
  | add (block : BlockRef) (now : Nat)
  | tick (now : Nat)
  deriving Repr, DecidableEq

/-- What it answers. -/
inductive Reply where
  | queued (r : Request)
  | ticked (cycle : Cycle)
  deriving Repr, DecidableEq

/-- One call. -/
def perform (c : Controller) : Call → Except Fault (Reply × Controller)
  | .add block now => do
    let (r, c) ← c.add block now
    return (.queued r, c)
  | .tick now => do
    let (cycle, c) ← c.tick now
    return (.ticked cycle, c)

/-- The requests that were started, then those that wait. -/
def requests (c : Controller) : List Request := c.ongoing ++ c.pending

/-- The invariant of a controller. -/
structure Sound (c : Controller) : Prop where
  maskable : ∃ k, c.banks.size = twoPow k
  holds : c.Holds c.ongoing
  ids_nodup : (c.requests.map (·.id)).Nodup
  ids_lt : ∀ i ∈ c.requests.map (·.id), i < c.nextId
  bank_lt : ∀ i ∈ c.requests.map (·.bank), i < c.banks.size
  exclusive : c.ongoing.Pairwise fun r s => r.conflictsWith s = false

namespace Sound

variable {c c' : Controller} {now : Nat}

theorem ongoing_bank_lt (h : c.Sound) : ∀ r ∈ c.ongoing, r.bank < c.banks.size :=
  fun _ hr => h.bank_lt _ (List.mem_map_of_mem (List.mem_append_left _ hr))

theorem pending_bank_lt (h : c.Sound) : ∀ r ∈ c.pending, r.bank < c.banks.size :=
  fun _ hr => h.bank_lt _ (List.mem_map_of_mem (List.mem_append_right _ hr))

theorem ongoing_ids_nodup (h : c.Sound) : (c.ongoing.map (·.id)).Nodup := by
  have hn := h.ids_nodup
  rw [requests, List.map_append] at hn
  exact (List.nodup_append.mp hn).1

end Sound

theorem idle_sound {config : Config.Dram} {lineBytes k : Nat}
    (h : config.banks.toNat = twoPow k) : (idle config lineBytes).Sound where
  maskable := ⟨k, by simp [idle, h]⟩
  holds :=
    { channel := rfl
      banks := by
        intro i b hb
        obtain ⟨_, rfl⟩ : i < config.banks.toNat ∧ Bank.idle = b := by
          simpa [idle, Array.getElem?_replicate] using hb
        rfl }
  ids_nodup := List.nodup_nil
  ids_lt := by simp [requests, idle]
  bank_lt := by simp [requests, idle]
  exclusive := List.Pairwise.nil

/-! ## Queueing -/

theorem bankIndex_spec {c : Controller} (h : ∃ k, c.banks.size = twoPow k) (address : Nat) :
    Ends (c.bankIndex address) Overflows fun i =>
      i = address / twoPow c.bankShift % c.banks.size ∧ i < c.banks.size := by
  obtain ⟨k, hk⟩ := h
  rw [bankIndex, exponent?_eq_some_iff.mpr hk, highBits]
  by_cases hs : c.bankShift < 32
  · rw [if_pos hs, hk]
    exact Ends.pure' ⟨rfl, Nat.mod_lt _ (twoPow_pos k)⟩
  · rw [if_neg hs]
    exact Ends.error rfl rfl

/-- A queued request takes the next number and waits behind all others. -/
theorem add_spec {c : Controller} (h : ∃ k, c.banks.size = twoPow k) (block : BlockRef)
    (now : Nat) :
    Ends (c.add block now) Overflows fun r =>
      r.2 = { c with pending := c.pending ++ [r.1], nextId := c.nextId + 1 }
        ∧ r.1.id = c.nextId ∧ r.1.block = block ∧ r.1.bank < c.banks.size := by
  rw [add]
  apply Ends.bind' (bankIndex_spec h block.address)
  intro index hindex
  have hrow : Ends (c.row block.address) Overflows fun _ => True := by
    rw [row, highBits]
    exact Ends.ite' (fun _ => trivial) (fun _ => rfl)
  apply Ends.bind' hrow
  intro row _
  rw [bank_eq hindex.2]
  apply Ends.bind' (Plan.compute_spec _ _ _)
  intro plan _
  apply Ends.bind' (sum64_spec _ _)
  intro nextId hnextId
  subst hnextId
  exact Ends.pure' ⟨rfl, rfl, rfl, hindex.2⟩

theorem Sound.add {c : Controller} (h : c.Sound) {r : Request} (hid : r.id = c.nextId)
    (hbank : r.bank < c.banks.size) :
    { c with pending := c.pending ++ [r], nextId := c.nextId + 1 }.Sound := by
  have hreq : { c with pending := c.pending ++ [r], nextId := c.nextId + 1 }.requests
      = c.requests ++ [r] := (List.append_assoc _ _ _).symm
  refine { maskable := h.maskable, holds := ⟨h.holds.channel, h.holds.banks⟩, ids_nodup := ?_,
           ids_lt := ?_, bank_lt := ?_, exclusive := h.exclusive }
  · rw [hreq, List.map_append, List.map_singleton, List.nodup_append]
    refine ⟨h.ids_nodup, List.nodup_singleton _, ?_⟩
    intro i hi j hj hij
    subst hij
    have hlt := h.ids_lt i hi
    rw [List.mem_singleton.mp hj, hid] at hlt
    exact Nat.lt_irrefl _ hlt
  · rw [hreq, List.map_append, List.map_singleton]
    intro i hi
    rcases List.mem_append.mp hi with hi | hi
    · exact Nat.lt_succ_of_lt (h.ids_lt i hi)
    · rw [List.mem_singleton.mp hi, hid]
      exact Nat.lt_succ_self _
  · rw [hreq, List.map_append, List.map_singleton]
    intro i hi
    rcases List.mem_append.mp hi with hi | hi
    · exact h.bank_lt i hi
    · rw [List.mem_singleton.mp hi]
      exact hbank

/-! ## Retiring -/

theorem drop_holds {c : Controller} {live : List Request} (h : c.Holds live) {r : Request}
    (hid : ∀ s ∈ live, s.id = r.id → s.bank = r.bank) :
    (c.drop r).Holds (without r.id live) where
  channel := by rw [drop, h.channel, Channel.heldBy_release]
  banks := by
    intro i b hb
    rw [drop, Array.getElem?_modify] at hb
    by_cases hi : r.bank = i
    · rw [if_pos hi] at hb
      obtain ⟨b₀, hb₀, rfl⟩ := Option.map_eq_some_iff.mp hb
      rw [Bank.release, h.banks i b₀ hb₀, releaseOwner_bankSlots]
    · -- another bank, where the request holds nothing
      rw [if_neg hi] at hb
      rw [h.banks i b hb, bankSlots_without]
      intro s hs hsid hsi
      exact hi ((hid s hs hsid).symm.trans hsi)

theorem foldl_drop_holds : ∀ (ended live : List Request) (c : Controller), c.Holds live →
    (∀ r ∈ ended, ∀ s ∈ live, s.id = r.id → s.bank = r.bank) →
    (ended.foldl drop c).Holds (live.filter fun s => ended.all (·.id != s.id))
  | [], live, c, h, _ => by simpa using h
  | r :: rest, live, c, h, hid => by
    -- What is held shrinks with each request dropped, so the induction is for every `live`.
    have hr := drop_holds h (hid r List.mem_cons_self)
    have hrest := foldl_drop_holds rest (without r.id live) (c.drop r) hr fun t ht s hs =>
      hid t (List.mem_cons_of_mem _ ht) s (mem_without.mp hs).1
    rw [List.foldl_cons]
    convert hrest using 1
    rw [without, List.filter_filter]
    apply List.filter_congr
    intro s _
    rw [List.all_cons, Bool.and_comm, bne_comm]

/-- Requests of one number are one request, so dropping the ended ones leaves the others. -/
theorem filter_not_ended {live : List Request} (h : (live.map (·.id)).Nodup)
    (p : Request → Bool) :
    (live.filter fun s => (live.filter p).all (·.id != s.id)) = live.filter (!p ·) := by
  apply List.filter_congr
  intro s hs
  rw [Bool.eq_iff_iff, List.all_eq_true]
  constructor
  · -- a request that has ended would have to differ from itself
    intro hall
    by_contra hp
    have := hall s (List.mem_filter.mpr ⟨hs, by simpa using hp⟩)
    simp at this
  · intro hp r hr
    obtain ⟨hr, hpr⟩ := List.mem_filter.mp hr
    have hne : r.id ≠ s.id := by
      intro hid
      rw [List.inj_on_of_nodup_map h hr hs hid] at hpr
      simp [hpr] at hp
    simpa using hne

theorem foldl_drop_eq : ∀ (ended : List Request) (c : Controller), ∃ channel banks,
    ended.foldl drop c = { c with channel, banks } ∧ banks.size = c.banks.size
  | [], c => ⟨c.channel, c.banks, rfl, rfl⟩
  | r :: rest, c => by
    obtain ⟨channel, banks, heq, hsize⟩ := foldl_drop_eq rest (c.drop r)
    refine ⟨channel, banks, ?_, ?_⟩
    · rw [List.foldl_cons, heq]; rfl
    · rw [hsize, drop_banks_size]

/-- Retiring changes nothing but the reservations and the started requests. -/
theorem afterRetire_eq (c : Controller) (now : Nat) : ∃ channel banks,
    c.afterRetire now = { c with channel, banks, ongoing := c.underWay now }
      ∧ banks.size = c.banks.size :=
  foldl_drop_eq _ _

theorem requests_afterRetire (c : Controller) (now : Nat) :
    (c.afterRetire now).requests = c.underWay now ++ c.pending := by
  obtain ⟨_, _, heq, _⟩ := c.afterRetire_eq now
  rw [heq, requests]

theorem Sound.afterRetire {c : Controller} (h : c.Sound) (now : Nat) :
    (c.afterRetire now).Sound := by
  obtain ⟨channel, banks, heq, hsize⟩ := c.afterRetire_eq now
  have hsub : (c.underWay now ++ c.pending).Sublist c.requests :=
    List.filter_sublist.append_right _
  have hholds : (c.afterRetire now).Holds (c.underWay now) := by
    have hfold := foldl_drop_holds (c.ended now) c.ongoing { c with ongoing := c.underWay now }
      ⟨h.holds.channel, h.holds.banks⟩
    rw [ended, filter_not_ended h.ongoing_ids_nodup] at hfold
    apply hfold
    intro r hr s hs hid
    rw [List.inj_on_of_nodup_map h.ongoing_ids_nodup hs (List.mem_filter.mp hr).1 hid]
  have hreq := c.requests_afterRetire now
  rw [heq] at hholds hreq ⊢
  refine { maskable := ?_, holds := hholds, ids_nodup := ?_, ids_lt := ?_, bank_lt := ?_,
           exclusive := h.exclusive.filter _ }
  · obtain ⟨k, hk⟩ := h.maskable
    exact ⟨k, hsize.trans hk⟩
  · rw [hreq]
    exact h.ids_nodup.sublist (hsub.map _)
  · rw [hreq]
    exact fun i hi => h.ids_lt i ((hsub.map _).subset hi)
  · rw [hreq, hsize]
    exact fun i hi => h.bank_lt i ((hsub.map _).subset hi)

/-! ## Starting -/

theorem launch_holds {c : Controller} {live : List Request} (h : c.Holds live) (r : Request) :
    (c.launch r).Holds (live ++ [r]) where
  channel := by rw [launch, h.channel, Channel.heldBy_reserve]
  banks := by
    intro i b hb
    rw [launch, Array.getElem?_modify] at hb
    by_cases hi : r.bank = i
    · rw [if_pos hi] at hb
      obtain ⟨b₀, hb₀, rfl⟩ := Option.map_eq_some_iff.mp hb
      rw [bankSlots_append, if_pos hi, ← h.banks i b₀ hb₀]
      rfl
    · rw [if_neg hi] at hb
      rw [bankSlots_append, if_neg hi, List.append_nil, h.banks i b hb]

/-- Starting moves requests between the queues and plans them anew; it neither loses nor makes
any. -/
theorem Scheduled.requests_perm {α : Type} {f : Request → α}
    (hf : ∀ r status plan, f { r with status, plan } = f r) {c c' : Controller} {now : Nat}
    {started? : Option Request} (h : c.Scheduled now started? c') :
    (c'.requests.map f).Perm (c.requests.map f) := by
  cases h with
  | none queue h =>
    simp only [requests, List.map_append, map_replanned hf h]
    exact .refl _
  | some r front back h hr =>
    have hmap := map_replanned hf h
    simp only [requests, launch, List.map_append, List.map_cons, List.map_nil,
      List.append_assoc] at hmap ⊢
    rw [← hmap]
    apply List.Perm.append_left
    have hmiddle : (front.map f ++ f r :: back.map f).Perm (f r :: (front.map f ++ back.map f)) :=
      List.perm_middle
    exact hmiddle.symm

theorem Scheduled.nextId_eq {c c' : Controller} {now : Nat} {started? : Option Request}
    (h : c.Scheduled now started? c') : c'.nextId = c.nextId := by
  cases h <;> rfl

theorem Scheduled.banks_size {c c' : Controller} {now : Nat} {started? : Option Request}
    (h : c.Scheduled now started? c') : c'.banks.size = c.banks.size := by
  cases h with
  | none => rfl
  | some => rw [launch_banks_size]

/-- The request that is started conflicts with none that is under way. -/
theorem Sound.free_of_startable {c : Controller} (h : c.Sound) {now : Nat} {r : Request}
    (hr : c.Startable now r) : ∀ s ∈ c.ongoing, s.conflictsWith r = false := by
  obtain ⟨b, hb, -⟩ := hr.status
  have hcand := hr.candidate
  rw [isCandidate_eq h.holds (Array.getElem?_eq_some_iff.mp hb).1] at hcand
  have hall := List.all_eq_true.mp (Except.ok.inj hcand)
  intro s hs
  simpa using hall s hs

theorem Sound.scheduled {c c' : Controller} (h : c.Sound) {now : Nat}
    {started? : Option Request} (hs : c.Scheduled now started? c') : c'.Sound := by
  have hids := hs.requests_perm (f := (·.id)) fun _ _ _ => rfl
  have hbanks := hs.requests_perm (f := (·.bank)) fun _ _ _ => rfl
  refine { maskable := ?_, holds := ?_, ids_nodup := hids.nodup_iff.mpr h.ids_nodup,
           ids_lt := ?_, bank_lt := ?_, exclusive := ?_ }
  · rw [hs.banks_size]
    exact h.maskable
  · cases hs with
    | none => exact ⟨h.holds.channel, h.holds.banks⟩
    | some r front back =>
      exact launch_holds (c := { c with pending := front ++ back })
        ⟨h.holds.channel, h.holds.banks⟩ r
  · intro i hi
    rw [hs.nextId_eq]
    exact h.ids_lt i (hids.mem_iff.mp hi)
  · intro i hi
    rw [hs.banks_size]
    exact h.bank_lt i (hbanks.mem_iff.mp hi)
  · cases hs with
    | none => exact h.exclusive
    | some r front back _ hr =>
      change (c.ongoing ++ [r]).Pairwise _
      rw [List.pairwise_append]
      refine ⟨h.exclusive, List.pairwise_singleton _ _, ?_⟩
      intro s hs t ht
      rw [List.mem_singleton.mp ht]
      exact h.free_of_startable hr s hs

/-! ## Runs -/

/-- One cycle: retires what has ended, then starts at most one waiting request. -/
theorem tick_spec {c : Controller} (h : c.Sound) (now : Nat) :
    Ends (c.tick now) Overflows fun r =>
      r.1.retired = (c.ended now).map (·.block)
        ∧ (c.afterRetire now).Scheduled now r.1.started? r.2 := by
  rw [tick]
  apply Ends.bind_ok (retire_eq now h.ongoing_bank_lt)
  have hr := h.afterRetire now
  apply Ends.bind' (schedule_spec hr.holds now hr.pending_bank_lt)
  intro s hs
  exact Ends.pure' ⟨rfl, hs⟩

theorem perform_sound {c : Controller} (h : c.Sound) (call : Call) :
    Ends (c.perform call) Overflows fun r => r.2.Sound := by
  cases call with
  | add block now =>
    apply Ends.bind' (add_spec h.maskable block now)
    intro added hadded
    obtain ⟨heq, hid, -, hbank⟩ := hadded
    apply Ends.pure'
    rw [heq]
    exact h.add hid hbank
  | tick now =>
    apply Ends.bind' (tick_spec h now)
    intro r hr
    exact Ends.pure' ((h.afterRetire now).scheduled hr.2)

theorem run_sound {c : Controller} (h : c.Sound) (calls : List Call) :
    Ends (record perform c calls) Overflows fun r => r.2.Sound :=
  Ends.record (fun _ _ c => c.Sound) (fun call _ _ _ h => perform_sound h call) calls [] c h

/-- **Exclusion.** From an idle controller whose number of banks is a power of two, whatever is
queued and whichever cycles are given, no two requests under way conflict. The calls go through
unless a number does not fit its word. -/
theorem ongoing_never_conflict (config : Config.Dram) (lineBytes k : Nat)
    (hbanks : config.banks.toNat = twoPow k) (calls : List Call) :
    Ends (record perform (idle config lineBytes) calls) Overflows fun r =>
      ∀ i j (hi : i < r.2.ongoing.length) (hj : j < r.2.ongoing.length), i ≠ j →
        r.2.ongoing[i].conflictsWith r.2.ongoing[j] = false := by
  apply (run_sound (idle_sound hbanks) calls).weaken
  intro r h i j hi hj hij
  have hp := List.pairwise_iff_getElem.mp h.exclusive
  rcases Nat.lt_or_gt_of_ne hij with hlt | hlt
  · exact hp i j hi hj hlt
  · rw [Request.conflictsWith_comm]
    exact hp j i hj hi hlt

/-- Two requests on two banks, the second started while the first is under way. -/
theorem ongoing_never_conflict_two_banks :
    (2 : UInt32).toNat = twoPow 1 ∧
      ∃ r, record perform
          (idle { banks := 2, commandCycles := 1, bankBusyCycles := 4, dataCycles := 2 } 32)
          [.add ⟨0, .data⟩ 0, .add ⟨32, .instruction⟩ 0, .tick 0, .tick 1, .tick 2] = .ok r
        ∧ r.2.ongoing.length = 2
        ∧ ∀ i j (hi : i < r.2.ongoing.length) (hj : j < r.2.ongoing.length), i ≠ j →
            r.2.ongoing[i].conflictsWith r.2.ongoing[j] = false := by
  refine ⟨rfl, _, rfl, rfl, ?_⟩
  exact (ongoing_never_conflict
    { banks := 2, commandCycles := 1, bankBusyCycles := 4, dataCycles := 2 } 32 1 rfl
    [.add ⟨0, .data⟩ 0, .add ⟨32, .instruction⟩ 0, .tick 0, .tick 1, .tick 2]).of_ok rfl

end Controller

end MemoryHierarchy.Dram
