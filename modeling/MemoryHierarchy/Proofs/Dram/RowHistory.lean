import MemoryHierarchy.Proofs.Dram.Selection
import MemoryHierarchy.Proofs.Dram.WholeRun

/-!
Which row a bank has open, told from what was started on it.

Starting a request opens its row, and nothing else touches a row. So over a run each bank has the
row open of the request that was started on it last (`Scheduled.openRow?_eq`), and the status of
a request at its start says what was started on its bank before it (`Request.Follows`). A bank is
without an open row only until its first request, which is thus the only miss it ever sees.
-/

namespace MemoryHierarchy.Dram

/-- Of some requests, latest first, the last one on bank `i`. -/
def latestOn? (i : Nat) (earlier : List Request) : Option Request := earlier.find? (·.bank == i)

/-- The row that these requests, latest first, leave open in bank `i`. -/
def rowAfter? (i : Nat) (earlier : List Request) : Option Nat :=
  (latestOn? i earlier).map (·.row)

/-- The status of a request says what was started before it on its bank. -/
structure Request.Follows (w : Request) (earlier : List Request) : Prop where
  miss : w.status = .miss ↔ ∀ r ∈ earlier, r.bank ≠ w.bank
  hit : w.status = .hit ↔ ∃ r, latestOn? w.bank earlier = some r ∧ r.row = w.row
  conflict : w.status = .conflict ↔ ∃ r, latestOn? w.bank earlier = some r ∧ r.row ≠ w.row

/-- How often these requests found bank `i` without an open row. -/
def missesOn (i : Nat) (requests : List Request) : Nat :=
  requests.countP fun r => r.bank == i && r.status == .miss

theorem latestOn?_eq_none {i : Nat} {earlier : List Request} :
    latestOn? i earlier = none ↔ ∀ r ∈ earlier, r.bank ≠ i := by
  simp [latestOn?]

/-- A request that is planned against the row left open by those before it. -/
theorem Request.follows_of_status {w : Request} {b : Bank} {earlier : List Request}
    (hstatus : w.status = b.status w.row) (hrow : b.openRow? = rowAfter? w.bank earlier) :
    w.Follows earlier := by
  rw [Bank.status, hrow, rowAfter?] at hstatus
  cases hlatest : latestOn? w.bank earlier with
  | none =>
    rw [hlatest] at hstatus
    have hmiss : w.status = .miss := hstatus
    exact ⟨iff_of_true hmiss (latestOn?_eq_none.mp hlatest), by simp [hmiss, hlatest],
      by simp [hmiss, hlatest]⟩
  | some r =>
    rw [hlatest] at hstatus
    change w.status = if r.row = w.row then .hit else .conflict at hstatus
    have hsome : ¬∀ r ∈ earlier, r.bank ≠ w.bank := by
      rw [← latestOn?_eq_none, hlatest]
      exact Option.some_ne_none r
    by_cases h : r.row = w.row
    · rw [if_pos h] at hstatus
      exact ⟨iff_of_false (by simp [hstatus]) hsome, by simp [hstatus, hlatest, h],
        by simp [hstatus, hlatest, h]⟩
    · rw [if_neg h] at hstatus
      exact ⟨iff_of_false (by simp [hstatus]) hsome, by simp [hstatus, hlatest, h],
        by simp [hstatus, hlatest, h]⟩

/-- Where no request but the first on a bank is a miss, a bank has one miss at most. -/
theorem missesOn_le_one (i : Nat) : ∀ {requests : List Request},
    (requests.Pairwise fun later earlier =>
      earlier.bank = later.bank → later.status ≠ .miss) → missesOn i requests ≤ 1
  | [], _ => Nat.zero_le 1
  | w :: earlier, h => by
    obtain ⟨hfirst, hearlier⟩ := List.pairwise_cons.mp h
    rw [missesOn]
    by_cases hw : (w.bank == i && w.status == .miss) = true
    · -- nothing came before a miss on its bank
      have hnone : earlier.countP (fun r => r.bank == i && r.status == .miss) = 0 := by
        rw [List.countP_eq_zero]
        intro r hr hmiss
        simp only [Bool.and_eq_true, beq_iff_eq] at hw hmiss
        exact hfirst r hr (hmiss.1.trans hw.1.symm) hw.2
      exact Nat.le_of_eq (by rw [List.countP_cons, if_pos hw, hnone])
    · rw [List.countP_cons, if_neg hw]
      exact missesOn_le_one i hearlier

namespace Controller

variable {c c' : Controller} {now i : Nat} {w : Request} {started? : Option Request}
  {earlier : List Request}

/-! ## Open rows -/

/-- What bank `i` has open, if there is such a bank. -/
def openRow? (c : Controller) (i : Nat) : Option (Option Nat) := c.banks[i]?.map (·.openRow?)

theorem idle_openRow? {config : Config.Dram} {lineBytes : Nat} (hi : i < config.banks.toNat) :
    (idle config lineBytes).openRow? i = some none := by
  simp [openRow?, idle, hi, Bank.idle]

/-- Letting go of a bank leaves its row open. -/
theorem drop_openRow? (c : Controller) (r : Request) (i : Nat) :
    (c.drop r).openRow? i = c.openRow? i := by
  rw [openRow?, drop, Array.getElem?_modify]
  by_cases hi : r.bank = i
  · rw [if_pos hi, Option.map_map]
    rfl
  · rw [if_neg hi]
    rfl

theorem foldl_drop_openRow? (ended : List Request) (c : Controller) (i : Nat) :
    (ended.foldl drop c).openRow? i = c.openRow? i := by
  induction ended generalizing c with
  | nil => rfl
  | cons r rest ih => rw [List.foldl_cons, ih, drop_openRow?]

theorem afterRetire_openRow? (c : Controller) (now i : Nat) :
    (c.afterRetire now).openRow? i = c.openRow? i :=
  foldl_drop_openRow? (c.ended now) { c with ongoing := c.underWay now } i

/-- The started request leaves its row open in its bank. -/
theorem Scheduled.openRow?_eq (h : c.Scheduled now started? c')
    (hrow : c.openRow? i = .some (rowAfter? i earlier)) :
    c'.openRow? i = .some (rowAfter? i (started?.toList ++ earlier)) := by
  cases h with
  | none => exact hrow
  | some w front back =>
    obtain ⟨b, hb, hopen⟩ := Option.map_eq_some_iff.mp hrow
    rw [Option.toList_some, List.singleton_append, rowAfter?, latestOn?]
    by_cases hi : w.bank = i
    · rw [List.find?_cons_of_pos (by simpa using hi), openRow?, launch, Array.getElem?_modify,
        if_pos hi, hb]
      rfl
    · rw [List.find?_cons_of_neg (by simpa using hi), openRow?, launch, Array.getElem?_modify,
        if_neg hi, hb]
      exact congrArg Option.some hopen

/-- A request is started with the status that those before it on its bank give it. -/
theorem Startable.follows (h : c.Startable now w)
    (hrow : c.openRow? w.bank = some (rowAfter? w.bank earlier)) : w.Follows earlier := by
  obtain ⟨b, hb, hstatus⟩ := h.status
  rw [openRow?, hb] at hrow
  exact Request.follows_of_status hstatus (Option.some.inj hrow)

/-! ## Runs -/

/-- What a run with `n` banks has shown about rows so far. -/
structure RowHistory (n : Nat) (past : List (Call × Reply)) (c : Controller) : Prop where
  sound : c.Sound
  banks : c.banks.size = n
  rows : ∀ i < n, c.openRow? i = some (rowAfter? i (started past))
  statuses : Each (fun before _ reply =>
    ∀ w, reply.started? = some w → w.Follows (started before)) past

theorem RowHistory.perform {n : Nat} {past : List (Call × Reply)} (h : RowHistory n past c)
    (call : Call) :
    Ends (c.perform call) Overflows fun q => RowHistory n ((call, q.1) :: past) q.2 := by
  cases call with
  | add block arrival =>
    apply Ends.bind' (add_spec h.sound.maskable block arrival)
    intro added hadded
    obtain ⟨heq, hid, -, hbank⟩ := hadded
    apply Ends.pure'
    rw [heq]
    exact ⟨h.sound.add hid hbank, h.banks, h.rows, by simp [Reply.started?], h.statuses⟩
  | tick now =>
    apply Ends.bind' (tick_spec h.sound now)
    intro q hq
    obtain ⟨cycle, c'⟩ := q
    have hscheduled : (c.afterRetire now).Scheduled now cycle.started? c' := hq.2
    have hmid := h.sound.afterRetire now
    have hsize : (c.afterRetire now).banks.size = n :=
      (congrArg Wiring.banks (c.wiring_afterRetire now)).trans h.banks
    have hrows : ∀ i < n, (c.afterRetire now).openRow? i = some (rowAfter? i (started past)) := by
      intro i hi
      rw [afterRetire_openRow?]
      exact h.rows i hi
    refine Ends.pure' ⟨hmid.scheduled hscheduled, hscheduled.banks_size.trans hsize, ?_, ?_,
      h.statuses⟩
    · intro i hi
      rw [started_ticked]
      exact hscheduled.openRow?_eq (hrows i hi)
    · intro w hw
      have hw : cycle.started? = some w := hw
      have hstart := (hw ▸ hscheduled).startable
      obtain ⟨b, hb, -⟩ := hstart.status
      have hlt := (Array.getElem?_eq_some_iff.mp hb).1
      exact hstart.follows (hrows w.bank (hsize ▸ hlt))

theorem started_cons (call : Call) (reply : Reply) (past : List (Call × Reply)) :
    started ((call, reply) :: past) = reply.started?.toList ++ started past := by
  cases reply with
  | queued r => rfl
  | ticked cycle => exact started_ticked 0 cycle past

/-- After the first request on a bank, no request on it is a miss. -/
theorem started_pairwise_of_follows : ∀ {past : List (Call × Reply)},
    Each (fun before _ reply => ∀ w, reply.started? = some w → w.Follows (started before)) past →
    (started past).Pairwise fun later earlier =>
      earlier.bank = later.bank → later.status ≠ .miss
  | [], _ => List.Pairwise.nil
  | (call, reply) :: past, h => by
    have hpast := started_pairwise_of_follows h.2
    cases hw : reply.started? with
    | none =>
      rw [started_cons, hw]
      exact hpast
    | some w =>
      rw [started_cons, hw, Option.toList_some, List.singleton_append, List.pairwise_cons]
      refine ⟨?_, hpast⟩
      intro r hr hbank hmiss
      exact (h.1 w hw).miss.mp hmiss r hr hbank

/-- **Row history.** Whatever has been asked of a fresh controller with a power-of-two number of
banks, each request was started as a miss if none had been started on its bank before, as a hit
if the last one had its row, and as a conflict otherwise; each bank has the row open of the
request that was started on it last, and no bank has seen a second miss. The calls go through
unless a number does not fit its word: no row is opened beside another one, and no closed row
is accessed. -/
theorem run_rows (config : Config.Dram) (lineBytes k : Nat)
    (hbanks : config.banks.toNat = twoPow k) (calls : List Call) :
    Ends (record perform (idle config lineBytes) calls) Overflows fun r =>
      Each (fun before _ reply =>
          ∀ w, reply.started? = some w → w.Follows (started before)) r.1
        ∧ (∀ i < config.banks.toNat, ∃ b, r.2.banks[i]? = some b
            ∧ b.openRow? = (latestOn? i (started r.1)).map (·.row))
        ∧ ∀ i, missesOn i (started r.1) ≤ 1 := by
  have hidle : RowHistory config.banks.toNat [] (idle config lineBytes) :=
    ⟨idle_sound hbanks, by simp [idle], fun i hi => idle_openRow? hi, trivial⟩
  apply (Ends.record (fun _ past c => RowHistory config.banks.toNat past c)
    (fun call _ _ _ h => h.perform call) calls [] _ hidle).weaken
  intro r hr
  refine ⟨hr.statuses, ?_, fun i => missesOn_le_one i (started_pairwise_of_follows hr.statuses)⟩
  intro i hi
  exact Option.map_eq_some_iff.mp (hr.rows i hi)

/-- On the first of two banks a miss, a conflict and a hit; a request for the second bank, a miss,
comes between them. -/
theorem run_rows_four :
    (2 : UInt32).toNat = twoPow 1 ∧ ∃ r,
      record perform
        (idle { banks := 2, rowShift := 6, commandCycles := 1, bankBusyCycles := 4,
                dataCycles := 2 } 32)
        [.add ⟨0, .data⟩ 0, .add ⟨64, .data⟩ 0, .add ⟨32, .instruction⟩ 0, .tick 0, .tick 2,
          .tick 20, .add ⟨64, .data⟩ 40, .tick 40] = .ok r
      ∧ (started r.1).map (fun w => (w.bank, w.status))
          = [(0, .hit), (0, .conflict), (1, .miss), (0, .miss)]
      ∧ Each (fun before _ reply =>
          ∀ w, reply.started? = some w → w.Follows (started before)) r.1
      ∧ (∀ i < 2, ∃ b, r.2.banks[i]? = some b
          ∧ b.openRow? = (latestOn? i (started r.1)).map (·.row))
      ∧ ∀ i, missesOn i (started r.1) ≤ 1 := by
  have hruns := run_rows
    { banks := 2, rowShift := 6, commandCycles := 1, bankBusyCycles := 4, dataCycles := 2 } 32 1
    rfl [.add ⟨0, .data⟩ 0, .add ⟨64, .data⟩ 0, .add ⟨32, .instruction⟩ 0, .tick 0, .tick 2,
      .tick 20, .add ⟨64, .data⟩ 40, .tick 40]
  obtain ⟨hstatuses, hrows, hmisses⟩ := hruns.of_ok rfl
  exact ⟨rfl, _, rfl, rfl, hstatuses, hrows, hmisses⟩

end Controller

end MemoryHierarchy.Dram
