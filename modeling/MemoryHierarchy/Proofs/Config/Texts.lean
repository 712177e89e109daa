import MemoryHierarchy.Proofs.Config.Records
import MemoryHierarchy.Proofs.Json.Texts

/-!
Which texts hold which configurations.

The form of every section lists its fields in their order, each with its width and its default.
Every section is read by its form, as a record whose fields are (`General.reads` to
`Config.reads`). So a configuration is read from a text exactly if the text holds a JSON value that
gives it (`ofText_ok_iff`), and a text is refused exactly if it holds no JSON value or one with a
fault (`ofText_malformed_iff`).
-/

namespace MemoryHierarchy

open Json

namespace Config

/-! ## Forms -/

def General.form : Form General := .record [
  .of "word_bits" General.wordBits .word32 (some 32),
  .of "memory_bytes" General.memoryBytes .word64 (some 1048576)]

def CacheSizes.form : Form CacheSizes := .record [
  .of "size_bytes" CacheSizes.sizeBytes .word32 none,
  .of "ways" CacheSizes.ways .word32 none,
  .of "line_bytes" CacheSizes.lineBytes .word32 (some 32)]

def Caches.form : Form Caches := .record [
  .of "l1_i" Caches.l1Instruction CacheSizes.form (some ⟨8192, 4, 32⟩),
  .of "l1_d" Caches.l1Data CacheSizes.form (some ⟨65536, 8, 32⟩),
  .of "l2" Caches.l2 CacheSizes.form (some ⟨262144, 16, 32⟩)]

def MissTracking.form : Form MissTracking := .record [
  .of "entries" MissTracking.entries .word64 (some 16)]

def Latencies.form : Form Latencies := .record [
  .of "l2_to_l1" Latencies.l2ToL1 .word64 (some 15),
  .of "l2_to_memory" Latencies.l2ToMemory .word64 (some 5),
  .of "memory_to_l2" Latencies.memoryToL2 .word64 (some 5)]

def Dram.form : Form Dram := .record [
  .of "banks" Dram.banks .word32 (some 8),
  .of "row_shift" Dram.rowShift .word32 (some 16),
  .of "command_cycles" Dram.commandCycles .word64 (some 4),
  .of "bank_busy_cycles" Dram.bankBusyCycles .word64 (some 100),
  .of "data_cycles" Dram.dataCycles .word64 (some 50)]

def Blocking.form : Form Blocking := .record [
  .of "miss_penalty" Blocking.missPenalty .word64 (some 50)]

/-- A section that is left out has its defaults. -/
def form : Form Config := .record [
  .of "general" Config.general General.form (some {}),
  .of "cache" Config.caches Caches.form (some {}),
  .of "mshr" Config.missTracking MissTracking.form (some {}),
  .of "interconnect" Config.latencies Latencies.form (some {}),
  .of "dram" Config.dram Dram.form (some {}),
  .of "blocking" Config.blocking Blocking.form (some {})]

/-! ## Reading by the forms -/

theorem General.reads : General.form.ReadBy General.ofJson? :=
  .record (by decide) fun _ =>
    .field word32_reads fun _ => .field word64_reads fun _ => .done fun g => by
      cases g
      simp

theorem CacheSizes.reads : CacheSizes.form.ReadBy CacheSizes.ofJson? :=
  .record (by decide) fun _ =>
    .field word32_reads fun _ => .field word32_reads fun _ => .field word32_reads fun _ =>
      .done fun s => by
        cases s
        simp [and_assoc]

theorem Caches.reads : Caches.form.ReadBy Caches.ofJson? :=
  .record (by decide) fun _ =>
    .field CacheSizes.reads fun _ => .field CacheSizes.reads fun _ =>
      .field CacheSizes.reads fun _ => .done fun s => by
        cases s
        simp [and_assoc]

theorem MissTracking.reads : MissTracking.form.ReadBy MissTracking.ofJson? :=
  .record (by decide) fun _ => .field word64_reads fun _ => .done fun m => by
    cases m
    simp

theorem Latencies.reads : Latencies.form.ReadBy Latencies.ofJson? :=
  .record (by decide) fun _ =>
    .field word64_reads fun _ => .field word64_reads fun _ => .field word64_reads fun _ =>
      .done fun l => by
        cases l
        simp [and_assoc]

theorem Dram.reads : Dram.form.ReadBy Dram.ofJson? :=
  .record (by decide) fun _ =>
    .field word32_reads fun _ => .field word32_reads fun _ =>
      .field word64_reads fun _ => .field word64_reads fun _ => .field word64_reads fun _ =>
        .done fun d => by
          cases d
          simp [and_assoc]

theorem Blocking.reads : Blocking.form.ReadBy Blocking.ofJson? :=
  .record (by decide) fun _ => .field word64_reads fun _ => .done fun b => by
    cases b
    simp

theorem reads : form.ReadBy ofJson? :=
  .record (by decide) fun _ =>
    .field General.reads fun _ => .field Caches.reads fun _ => .field MissTracking.reads fun _ =>
      .field Latencies.reads fun _ => .field Dram.reads fun _ => .field Blocking.reads fun _ =>
        .done fun c => by
          cases c
          simp [and_assoc]

/-! ## Texts -/

theorem ofText_eq_ok_iff {text : String} {c : Config} :
    ofText text = .ok c ↔ ∃ j, parse? text = some j ∧ ofJson? j = some c := by
  rw [← Option.bind_eq_some_iff, ofText, Option.bind_eq_bind]
  cases (parse? text).bind ofJson? <;> simp

theorem ofText_eq_malformed_iff {text : String} :
    ofText text = .error .malformed ↔ ∀ j, parse? text = some j → ofJson? j = none := by
  rw [← Option.bind_eq_none_iff, ofText, Option.bind_eq_bind]
  cases (parse? text).bind ofJson? <;> simp

/-- A configuration is read from a text exactly if the text holds one JSON value that gives it: an
object or array of sections, each an object or array of its fields, in which every field is given
once or is left out at its default. -/
theorem ofText_ok_iff (text : String) (c : Config) :
    ofText text = .ok c ↔ ∃ j, Json.Written j text ∧ form.Gives j c := by
  rw [ofText_eq_ok_iff]
  exact exists_congr fun j => and_congr parse?_eq_some_iff reads.some_iff

/-- Arrays that end early, an unknown name and a changed order. -/
example :
    ofText "[\x7b\"note\": [1e9, null], \"memory_bytes\": 512, \"word_bits\": 8\x7d, [[64, 2]]]"
      = .ok {
        general := { wordBits := 8, memoryBytes := 512 }
        caches := { l1Instruction := { sizeBytes := 64, ways := 2, lineBytes := 32 } } } := by
  cbv

/-- A text is refused as malformed exactly if it holds no JSON value, or one with a fault: in the
whole, in a section or in a cache, whatever stands beside it. -/
theorem ofText_malformed_iff (text : String) :
    ofText text = .error .malformed
      ↔ (∀ j, ¬Json.Written j text) ∨ ∃ j, Json.Written j text ∧ form.Faulty j := by
  rw [ofText_eq_malformed_iff]
  simp only [parse?_eq_some_iff, reads.none_iff]
  constructor
  · intro h
    by_cases hwritten : ∃ j, Json.Written j text
    · obtain ⟨j, hj⟩ := hwritten
      exact .inr ⟨j, hj, h j hj⟩
    · exact .inl (not_exists.mp hwritten)
  · rintro (hnone | ⟨j, hj, hfaulty⟩) k hk
    · exact absurd hk (hnone k)
    · -- A text holds one value only, so the one that is read is the one with the fault.
      obtain rfl := Option.some.inj
        ((parse?_eq_some_iff.mpr hj).symm.trans (parse?_eq_some_iff.mpr hk))
      exact hfaulty

/-- A cache without its size. -/
example :
    ofText "\x7b\"cache\": \x7b\"l1_i\": \x7b\"ways\": 2\x7d\x7d\x7d" = .error .malformed := by
  cbv

end Config

end MemoryHierarchy
