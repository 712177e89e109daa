import Mathlib.Data.Nat.Bitwise
import MemoryHierarchy.Proofs.Dram.Lifecycle
import MemoryHierarchy.Proofs.Dram.RowHistory

/-!
Which bank and which row an address is in.

The bank is a field of the address and the row is what lies above another bit. The checks of a
configuration place the first just above the bits of a line and the second above both
(`Wiring.Layered`). So consecutive lines take turns on the banks, and as many lines as there are
banks share a row (`Striped`). Every request goes to the bank and the row of its block
(`Request.Placed`), so over a run a request hits its row exactly if its block and that of the
request before it on its bank differ below the row alone (`lines_striped`).
-/

namespace MemoryHierarchy.Dram

theorem div_eq_of_dvd {a b m n : Nat} (hdvd : m ∣ n) (h : a / m = b / m) : a / n = b / n := by
  obtain ⟨k, rfl⟩ := hdvd
  rw [← Nat.div_div_eq_div_mul, h, Nat.div_div_eq_div_mul]

/-- Two numbers agree from bit `k` up exactly if they differ in the bits below it alone. -/
theorem div_twoPow_eq_iff {a b k : Nat} :
    a / twoPow k = b / twoPow k ↔ a ^^^ b < twoPow k := by
  have hxor : (a ^^^ b) / twoPow k = a / twoPow k ^^^ b / twoPow k := Nat.xor_div_two_pow
  rw [← Nat.div_eq_zero_iff_lt (twoPow_pos k), hxor, Nat.xor_eq_zero_iff]

namespace Controller

/-! ## Lines and banks -/

/-- The bank bits lie just above those of a line, and the row above the bank bits. -/
structure Wiring.Layered (w : Wiring) (lineBytes : Nat) : Prop where
  legal : w.Legal
  line : lineBytes = twoPow w.bankShift
  bankTop : ∃ k, w.banks = twoPow k ∧ w.bankShift + k ≤ w.rowShift

/-- How consecutive lines take turns on the banks. A group is as many lines as there are banks, the
first of them at a multiple of their size. -/
structure Striped (c : Controller) (lineBytes : Nat) : Prop where
  /-- Every address has a bank: the bits from `bankShift` up under a mask. -/
  bank : ∀ a, c.bankIndex a = .ok (a >>> c.bankShift &&& (c.banks.size - 1))
  bank_lt : ∀ a i, c.bankIndex a = .ok i → i < c.banks.size
  /-- Every address has a row: the bits from `rowShift` up. -/
  row : ∀ a, c.row a = .ok (a >>> c.rowShift)
  line : ∀ a b, a / lineBytes = b / lineBytes → c.bankIndex a = c.bankIndex b ∧ c.row a = c.row b
  /-- No group reaches beyond the addresses. -/
  group : c.banks.size * lineBytes ∣ addressSpace
  groupRow : ∀ a b, a / (c.banks.size * lineBytes) = b / (c.banks.size * lineBytes) →
    c.row a = c.row b
  turn : ∀ base, c.banks.size * lineBytes ∣ base → ∀ j < c.banks.size,
    c.bankIndex (base + j * lineBytes) = .ok j
  /-- A group has one line on each bank. -/
  once : ∀ base, c.banks.size * lineBytes ∣ base → ∀ i < c.banks.size,
    ∃! j, j < c.banks.size ∧ c.bankIndex (base + j * lineBytes) = .ok i
  sameRow : ∀ a b, c.row a = c.row b ↔ a ^^^ b < twoPow c.rowShift
  /-- On one bank, addresses that differ below the row alone find the row buffer alike. -/
  sameStatus : ∀ a b, c.bankIndex a = c.bankIndex b → a ^^^ b < twoPow c.rowShift →
    c.rowStatus a = c.rowStatus b

theorem idle_layered {config : Config.Dram} {g : Geometry} (h : config.LaidOut g.offsetBits) :
    (idle config g.lineBytes).wiring.Layered g.lineBytes := by
  obtain ⟨k, hbanks, htop⟩ := h.bankTop
  have hrow := h.rowShift
  have hshift : trailingZeros g.lineBytes = g.offsetBits := trailingZeros_twoPow _ (by omega)
  have hsize : (idle config g.lineBytes).banks.size = twoPow k := by simp [idle, hbanks]
  refine ⟨idle_legal h, ?_, k, hsize, ?_⟩
  · show g.lineBytes = twoPow (trailingZeros g.lineBytes)
    rw [hshift]
    rfl
  · show trailingZeros g.lineBytes + k ≤ config.rowShift.toNat
    rw [hshift]
    exact htop

theorem rowStatus_congr {c : Controller} {a b : Nat} (hbank : c.bankIndex a = c.bankIndex b)
    (hrow : c.row a = c.row b) : c.rowStatus a = c.rowStatus b := by
  rw [rowStatus, rowStatus, hbank, hrow]

namespace Wiring.Layered

variable {c : Controller} {w : Wiring} {lineBytes : Nat}

theorem line_pos (h : w.Layered lineBytes) : 0 < lineBytes := by
  rw [h.line]
  exact twoPow_pos _

theorem banks_pos (h : w.Layered lineBytes) : 0 < w.banks := by
  obtain ⟨k, hk, -⟩ := h.bankTop
  rw [hk]
  exact twoPow_pos k

theorem maskable (h : c.wiring.Layered lineBytes) : ∃ k, c.banks.size = twoPow k := by
  obtain ⟨k, hk, -⟩ := h.bankTop
  exact ⟨k, hk⟩

/-- A group lies in one row. -/
theorem group_dvd (h : w.Layered lineBytes) : w.banks * lineBytes ∣ twoPow w.rowShift := by
  obtain ⟨k, hk, htop⟩ := h.bankTop
  rw [hk, h.line, ← twoPow_add, Nat.add_comm]
  exact twoPow_dvd htop

/-- The lines are numbered, and the bank is the number of the line without its high bits. -/
theorem bankIndex_eq (h : c.wiring.Layered lineBytes) (a : Nat) :
    c.bankIndex a = .ok (a / lineBytes % c.banks.size) := by
  rw [Controller.bankIndex_eq h.maskable h.legal, h.line]
  rfl

theorem bank_mask (h : c.wiring.Layered lineBytes) (a : Nat) :
    c.bankIndex a = .ok (a >>> c.bankShift &&& (c.banks.size - 1)) := by
  obtain ⟨k, hk⟩ := h.maskable
  have hmask : a >>> c.bankShift &&& (twoPow k - 1) = a >>> c.bankShift % twoPow k :=
    Nat.and_two_pow_sub_one_eq_mod _ _
  rw [Controller.bankIndex_eq h.maskable h.legal, hk, hmask, Nat.shiftRight_eq_div_pow]
  rfl

theorem row_eq_row_of_dvd (h : c.wiring.Layered lineBytes) {m a b : Nat}
    (hdvd : m ∣ twoPow c.rowShift) (hab : a / m = b / m) : c.row a = c.row b := by
  rw [row_eq h.legal, row_eq h.legal, div_eq_of_dvd hdvd hab]

theorem row_eq_row_iff (h : c.wiring.Layered lineBytes) (a b : Nat) :
    c.row a = c.row b ↔ a ^^^ b < twoPow c.rowShift := by
  rw [row_eq h.legal, row_eq h.legal, Except.ok.injEq]
  exact div_twoPow_eq_iff

/-- Line `j` of a group is on bank `j`. -/
theorem bankIndex_line (h : c.wiring.Layered lineBytes) {base j : Nat}
    (hbase : c.banks.size * lineBytes ∣ base) (hj : j < c.banks.size) :
    c.bankIndex (base + j * lineBytes) = .ok j := by
  obtain ⟨n, rfl⟩ := hbase
  have hline : (c.banks.size * lineBytes * n + j * lineBytes) / lineBytes
      = c.banks.size * n + j := by
    rw [Nat.add_mul_div_right _ _ h.line_pos, Nat.mul_right_comm, Nat.mul_div_cancel _ h.line_pos]
  rw [h.bankIndex_eq, hline, Nat.mul_add_mod, Nat.mod_eq_of_lt hj]

theorem striped (h : c.wiring.Layered lineBytes) : c.Striped lineBytes where
  bank := h.bank_mask
  bank_lt a i hi := by
    rw [h.bankIndex_eq] at hi
    rw [← Except.ok.inj hi]
    exact Nat.mod_lt _ h.banks_pos
  row a := by
    rw [row_eq h.legal, Nat.shiftRight_eq_div_pow]
    rfl
  line a b hab := by
    constructor
    · rw [h.bankIndex_eq, h.bankIndex_eq, hab]
    · exact h.row_eq_row_of_dvd (Nat.dvd_trans (Nat.dvd_mul_left _ _) h.group_dvd) hab
  group := Nat.dvd_trans h.group_dvd (twoPow_dvd (Nat.le_of_lt h.legal.rowShift))
  groupRow _ _ := h.row_eq_row_of_dvd h.group_dvd
  turn _ hbase _ := h.bankIndex_line hbase
  once base hbase i hi := by
    refine ⟨i, ⟨hi, h.bankIndex_line hbase hi⟩, ?_⟩
    rintro j ⟨hj, hbank⟩
    rw [h.bankIndex_line hbase hj] at hbank
    exact Except.ok.inj hbank
  sameRow := h.row_eq_row_iff
  sameStatus a b hbank hab := rowStatus_congr hbank ((h.row_eq_row_iff a b).mpr hab)

end Wiring.Layered

end Controller

/-! ## Requests and rows -/

namespace Request

/-- A request for the bank and the row of its block. -/
structure Placed (r : Request) (w : Controller.Wiring) : Prop where
  bank : r.bank = r.block.address / twoPow w.bankShift % w.banks
  row : r.row = r.block.address / twoPow w.rowShift

theorem Placed.of_identity {r s : Request} {w : Controller.Wiring} (h : r.Placed w)
    (hsame : s.identity = r.identity) : s.Placed w := by
  simp only [identity, Prod.mk.injEq] at hsame
  obtain ⟨-, hblock, hbank, hrow, -⟩ := hsame
  constructor
  · rw [hbank, hblock, h.bank]
  · rw [hrow, hblock, h.row]

/-- Placed requests are for one row exactly if their blocks differ below the row alone. -/
theorem Placed.row_eq_iff {r s : Request} {w : Controller.Wiring} (hr : r.Placed w)
    (hs : s.Placed w) :
    r.row = s.row ↔ r.block.address ^^^ s.block.address < twoPow w.rowShift := by
  rw [hr.row, hs.row]
  exact div_twoPow_eq_iff

end Request

namespace Controller

variable {c : Controller} {w : Wiring} {past : List (Call × Reply)}

theorem add_placed (h : ∃ k, c.banks.size = twoPow k) (hw : c.wiring.Legal) (block : BlockRef)
    (now : Nat) : Ends (c.add block now) Overflows fun r => r.1.Placed c.wiring := by
  have hlt : block.address / twoPow c.bankShift % c.banks.size < c.banks.size :=
    (bankIndex_total h hw block.address).of_ok (bankIndex_eq h hw block.address)
  rw [add]
  apply Ends.bind_ok (bankIndex_eq h hw block.address)
  apply Ends.bind_ok (row_eq hw block.address)
  apply Ends.bind_ok (bank_eq hlt)
  apply Ends.bind' (Plan.compute_spec _ _ _)
  intro plan _
  apply Ends.bind' (sum64_spec _ _)
  intro nextId _
  exact Ends.pure' ⟨rfl, rfl⟩

/-- A call leaves the wiring alone, and the requests at the bank and the row of their blocks. -/
theorem perform_placed (hc : c.Sound) (hw : c.wiring.Legal)
    (hpending : ∀ r ∈ c.pending, r.Placed c.wiring) (call : Call) :
    Ends (c.perform call) Overflows fun q => q.2.wiring = c.wiring
      ∧ ∀ r ∈ q.1.started?.toList ++ q.2.pending, r.Placed c.wiring := by
  cases call with
  | add block arrival =>
    apply Ends.bind' ((add_spec hc.maskable block arrival).also
      (add_placed hc.maskable hw block arrival))
    intro added hadded
    obtain ⟨⟨heq, -⟩, hplaced⟩ := hadded
    apply Ends.pure'
    rw [heq]
    refine ⟨rfl, ?_⟩
    show ∀ r ∈ c.pending ++ [added.1], _
    simp only [List.mem_append, List.mem_singleton]
    rintro r (hr | rfl)
    · exact hpending r hr
    · exact hplaced
  | tick now =>
    apply Ends.bind' (tick_spec hc now)
    intro q hq
    obtain ⟨cycle, c'⟩ := q
    have hscheduled : (c.afterRetire now).Scheduled now cycle.started? c' := hq.2
    refine Ends.pure' ⟨hscheduled.wiring_eq.trans (c.wiring_afterRetire now), ?_⟩
    intro r hr
    -- Planning anew leaves block, bank and row of a request as they were when it was queued.
    have hwaited := hscheduled.waited hr
    rw [afterRetire_pending] at hwaited
    obtain ⟨s, hs, hsame⟩ := List.mem_map.mp hwaited
    exact (hpending s hs).of_identity hsame.symm

/-- What a run has shown about banks and rows so far. -/
structure PlacedRun (w : Wiring) (past : List (Call × Reply)) (c : Controller) : Prop where
  history : RowHistory w.banks past c
  wiring : c.wiring = w
  placed : ∀ r ∈ started past ++ c.pending, r.Placed w

theorem PlacedRun.perform (hw : w.Legal) (h : PlacedRun w past c) (call : Call) :
    Ends (c.perform call) Overflows fun q => PlacedRun w ((call, q.1) :: past) q.2 := by
  have hpending : ∀ r ∈ c.pending, r.Placed w :=
    fun r hr => h.placed r (List.mem_append_right _ hr)
  obtain rfl := h.wiring
  apply ((h.history.perform call).also
    (perform_placed h.history.sound hw hpending call)).weaken
  rintro q ⟨hhistory, hwiring, hnew⟩
  refine ⟨hhistory, hwiring, ?_⟩
  intro r hr
  rw [started_cons, List.append_assoc, List.mem_append] at hr
  rcases hr with hr | hr
  · exact hnew r (List.mem_append_left _ hr)
  · rcases List.mem_append.mp hr with hr | hr
    · exact h.placed r (List.mem_append_left _ hr)
    · exact hnew r (List.mem_append_right _ hr)

theorem run_placed {config : Config.Dram} {g : Geometry} (hconfig : config.LaidOut g.offsetBits)
    (calls : List Call) :
    Ends (record perform (idle config g.lineBytes) calls) Overflows fun r =>
      PlacedRun (idle config g.lineBytes).wiring r.1 r.2 := by
  obtain ⟨k, hbanks, -⟩ := hconfig.bankTop
  have hidle : PlacedRun (idle config g.lineBytes).wiring [] (idle config g.lineBytes) := by
    refine ⟨⟨idle_sound hbanks, rfl, ?_, trivial⟩, rfl, List.forall_mem_nil _⟩
    intro i hi
    exact idle_openRow? (by simpa [wiring, idle] using hi)
  exact Ends.record (fun _ past c => PlacedRun (idle config g.lineBytes).wiring past c)
    (fun call _ _ _ h => h.perform (idle_legal hconfig) call) calls [] _ hidle

/-- What holds of all started requests holds of each and of those before it. -/
theorem each_started {P : Request → Prop} : ∀ {past : List (Call × Reply)},
    (∀ r ∈ started past, P r) →
      Each (fun before _ reply => ∀ r ∈ reply.started?.toList ++ started before, P r) past
  | [], _ => trivial
  | (call, reply) :: past, h => by
    rw [started_cons] at h
    exact ⟨h, each_started fun r hr => h r (List.mem_append_right _ hr)⟩

/-- A request hits its row exactly if its block and that of the request before it on its bank
differ below the row alone. -/
def HitsByAddress (rowShift : Nat) (before : List (Call × Reply)) (reply : Reply) : Prop :=
  ∀ r, reply.started? = some r → ∀ s, latestOn? r.bank (started before) = some s →
    (r.status = .hit ↔ s.block.address ^^^ r.block.address < twoPow rowShift)

theorem PlacedRun.hits (h : PlacedRun w past c) :
    Each (fun before _ reply => HitsByAddress w.rowShift before reply) past := by
  have hplaced := each_started (P := fun r => r.Placed w)
    fun r hr => h.placed r (List.mem_append_left _ hr)
  refine (h.history.statuses.and hplaced).imp ?_
  rintro before call reply ⟨hfollows, hall⟩ r hr s hs
  have hrow := Request.Placed.row_eq_iff
    (hall s (List.mem_append_right _ (List.mem_of_find?_eq_some hs)))
    (hall r (List.mem_append_left _ (Option.mem_toList.mpr hr)))
  rw [(hfollows r hr).hit, ← hrow]
  simp [hs]

/-- **Address mapping.** In a configuration that passes the checks every address has a bank and a
row, all bytes of a line have the same, and a group of as many lines as there are banks lies in one
row with one line on each bank. On one bank, addresses that differ below the row alone are in one
row. This does not change whatever is asked of the controller, and each request that is started hits
its row exactly if its block and that of the request before it on its bank differ below the row
alone. The calls go through unless a number does not fit its word. -/
theorem lines_striped (c : Config) (g : Config.Geometries) (hc : c.validate = .ok g)
    (calls : List Call) :
    Ends (record perform (idle c.dram g.l2.lineBytes) calls) Overflows fun r =>
      r.2.Striped g.l2.lineBytes
        ∧ (r.2.banks.size = c.dram.banks.toNat ∧ r.2.rowShift = c.dram.rowShift.toNat)
        ∧ (∀ q ∈ started r.1, r.2.bankIndex q.block.address = .ok q.bank
          ∧ r.2.row q.block.address = .ok q.row)
        ∧ Each (fun before _ reply => HitsByAddress c.dram.rowShift.toNat before reply) r.1 := by
  have hdram := (Config.validate_fitted hc).dram
  apply (run_placed hdram calls).weaken
  intro r hr
  have hlayered : r.2.wiring.Layered g.l2.lineBytes := by
    rw [hr.wiring]
    exact idle_layered hdram
  have hbanks : r.2.banks.size = (idle c.dram g.l2.lineBytes).banks.size :=
    congrArg Wiring.banks hr.wiring
  refine ⟨hlayered.striped, ⟨?_, congrArg Wiring.rowShift hr.wiring⟩, ?_, hr.hits⟩
  · rw [hbanks]
    exact Array.size_replicate
  · intro q hq
    have hplaced := hr.placed q (List.mem_append_left _ hq)
    rw [← hr.wiring] at hplaced
    constructor
    · rw [bankIndex_eq hlayered.maskable hlayered.legal, hplaced.bank]
      rfl
    · rw [row_eq hlayered.legal, hplaced.row]
      rfl

/-- Lines of 4 bytes on two banks with rows of 16 bytes: two lines of one row, the line between them
on the other bank, and a line of the next row. -/
theorem lines_striped_two_banks :
    ∃ (c : Config) (g : Config.Geometries), c.validate = .ok g ∧ g.l2.lineBytes = 4 ∧ ∃ r,
      record perform (idle c.dram g.l2.lineBytes)
          [.add ⟨0, .data⟩ 0, .tick 0, .add ⟨4, .data⟩ 9, .tick 9, .add ⟨8, .data⟩ 18, .tick 18,
            .add ⟨16, .data⟩ 27, .tick 27] = .ok r
        ∧ (started r.1).map (fun q => (q.block.address, q.bank, q.row, q.status))
          = [(16, 0, 1, .conflict), (8, 0, 0, .hit), (4, 1, 0, .miss), (0, 0, 0, .miss)]
        ∧ r.2.Striped 4
        ∧ Each (fun before _ reply => HitsByAddress 4 before reply) r.1 := by
  obtain ⟨c, g, hvalid, hline, hshift, r, hrun, hstarted⟩ :
      ∃ (c : Config) (g : Config.Geometries), c.validate = .ok g ∧ g.l2.lineBytes = 4
        ∧ c.dram.rowShift.toNat = 4 ∧ ∃ r,
          record perform (idle c.dram g.l2.lineBytes)
              [.add ⟨0, .data⟩ 0, .tick 0, .add ⟨4, .data⟩ 9, .tick 9, .add ⟨8, .data⟩ 18,
                .tick 18, .add ⟨16, .data⟩ 27, .tick 27] = .ok r
            ∧ (started r.1).map (fun q => (q.block.address, q.bank, q.row, q.status))
              = [(16, 0, 1, .conflict), (8, 0, 0, .hit), (4, 1, 0, .miss), (0, 0, 0, .miss)] :=
    ⟨{ general := { wordBits := 8, memoryBytes := 32 }
       caches := { l1Instruction := ⟨4, 1, 4⟩, l1Data := ⟨4, 1, 4⟩, l2 := ⟨8, 1, 4⟩ }
       missTracking := { entries := 2 }
       latencies := ⟨1, 1, 1⟩
       dram := ⟨2, 4, 1, 1, 1⟩ }, _, rfl, rfl, rfl, _, rfl, rfl⟩
  obtain ⟨hstriped, -, -, hhits⟩ := (lines_striped c g hvalid _).of_ok hrun
  rw [hline] at hstriped
  rw [hshift] at hhits
  exact ⟨c, g, hvalid, hline, r, hrun, hstarted, hstriped, hhits⟩

end Controller

end MemoryHierarchy.Dram
