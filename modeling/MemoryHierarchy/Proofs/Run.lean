import Mathlib.Data.List.Forall2
import MemoryHierarchy.Fault

/-!
Computations that may fault, and runs of a machine.

`Ends x E P` says how `x` ends: with a value that satisfies `P`, or with a fault that satisfies
`E`. With no fault allowed it is total correctness; with every fault allowed it speaks only of
the runs that go through. `record` runs a machine over a list of inputs and keeps what was
answered to each of them; `Ends.record` is the one induction over runs. Two machines are compared
through their histories (`Each.forall₂`), or step by step (`sideBySide`).
-/

namespace MemoryHierarchy

/-- What a chain returns comes from what its first part returns. -/
theorem bind_eq_ok {ε α β : Type} {x : Except ε α} {f : α → Except ε β} {b : β} :
    x >>= f = .ok b ↔ ∃ a, x = .ok a ∧ f a = .ok b := by
  cases x with
  | ok a =>
    constructor
    · exact fun h => ⟨a, rfl, h⟩
    · intro h
      obtain ⟨a', ha, h⟩ := h
      rw [Except.ok.inj ha]
      exact h
  | error e =>
    constructor
    · intro h
      cases h
    · intro h
      obtain ⟨a', ha, -⟩ := h
      cases ha

/-- How `x` ends: with a value of `P` or a fault of `E`. -/
def Ends {α : Type} (x : Except Fault α) (E : Fault → Prop) (P : α → Prop) : Prop :=
  match x with
  | .ok a => P a
  | .error f => E f

/-- No fault. -/
def Never (_ : Fault) : Prop := False

/-- A number that its word could not hold, and no other fault. -/
def Overflows (f : Fault) : Prop := f = .overflow

namespace Ends

variable {α β σ ι ο : Type} {x : Except Fault α} {f : α → Except Fault β}
  {E E' : Fault → Prop} {P Q : α → Prop} {R : β → Prop}

theorem pure' {a : α} (h : P a) : Ends (pure a) E P := h

theorem ok {a : α} (hx : x = .ok a) (h : P a) : Ends x E P := by
  rw [hx]; exact h

theorem error {e : Fault} (hx : x = .error e) (h : E e) : Ends x E P := by
  rw [hx]; exact h

theorem bind' (hx : Ends x E P) (hf : ∀ a, P a → Ends (f a) E R) : Ends (x >>= f) E R := by
  cases x with
  | ok a => exact hf a hx
  | error e => exact hx

theorem bind_ok {a : α} (hx : x = .ok a) (hf : Ends (f a) E R) : Ends (x >>= f) E R := by
  rw [hx]; exact hf

theorem mono (hx : Ends x E P) (hE : ∀ e, E e → E' e) (hP : ∀ a, P a → Q a) : Ends x E' Q := by
  cases x with
  | ok a => exact hP a hx
  | error e => exact hE e hx

theorem weaken (hx : Ends x E P) (hP : ∀ a, P a → Q a) : Ends x E Q :=
  mono hx (fun _ h => h) hP

theorem faults (hx : Ends x E P) (hE : ∀ e, E e → E' e) : Ends x E' P :=
  mono hx hE fun _ h => h

theorem map' {g : α → β} (hx : Ends x E P) (hg : ∀ a, P a → R (g a)) : Ends (x.map g) E R := by
  cases x with
  | ok a => exact hg a hx
  | error e => exact hx

theorem of_ok {a : α} (hx : Ends x E P) (h : x = .ok a) : P a := by
  rw [h] at hx; exact hx

theorem of_error {e : Fault} (hx : Ends x E P) (h : x = .error e) : E e := by
  rw [h] at hx; exact hx

theorem and_eq (hx : Ends x E P) : Ends x E fun a => P a ∧ x = .ok a := by
  cases x with
  | ok a => exact ⟨hx, rfl⟩
  | error e => exact hx

theorem any : Ends x (fun _ => True) fun _ => True := by
  cases x <;> exact trivial

theorem both (hx : Ends x E P) (hx' : Ends x E' Q) :
    Ends x (fun e => E e ∧ E' e) fun a => P a ∧ Q a := by
  cases x with
  | ok a => exact ⟨hx, hx'⟩
  | error e => exact ⟨hx, hx'⟩

/-- Another property of the value, whatever its proof says about faults. -/
theorem also (hx : Ends x E P) (hx' : Ends x E' Q) : Ends x E fun a => P a ∧ Q a :=
  mono (both hx hx') (fun _ h => h.1) fun _ h => h

/-- What holds under a condition, beside what holds anyway. -/
theorem provided {H : Prop} (hx : Ends x E P) (hx' : H → Ends x E' Q) :
    Ends x (fun e => E e ∧ (H → E' e)) fun a => P a ∧ (H → Q a) := by
  cases x with
  | ok a => exact ⟨hx, hx'⟩
  | error e => exact ⟨hx, hx'⟩

/-- A computation that never faults does what it does when it goes through. -/
theorem and_never (hx : Ends x E P) (hx' : Ends x Never Q) : Ends x Never fun a => P a ∧ Q a :=
  mono (both hx hx') (fun _ h => h.2) fun _ h => h

theorem exists_ok (hx : Ends x Never P) : ∃ a, x = .ok a ∧ P a := by
  cases x with
  | ok a => exact ⟨a, rfl, hx⟩
  | error e => exact hx.elim

/-- A view of the value can be evaluated where the value itself is too large to write down. -/
theorem evaluated {view : α → β} {b : β} (hx : Ends x E P) (h : x.toOption.map view = some b) :
    ∃ a, x = .ok a ∧ view a = b ∧ P a := by
  cases x with
  | ok a => exact ⟨a, rfl, Option.some.inj h, hx⟩
  | error e => cases h

theorem ite' {c : Prop} [Decidable c] {y : Except Fault α} (hx : c → Ends x E P)
    (hy : ¬c → Ends y E P) : Ends (if c then x else y) E P := by
  by_cases h : c
  · rw [if_pos h]; exact hx h
  · rw [if_neg h]; exact hy h

/-- A fold keeps a property of the elements still to come and the state so far. -/
theorem foldlM' {step : σ → ι → Except Fault σ} (I : List ι → σ → Prop)
    (hstep : ∀ i rest s, I (i :: rest) s → Ends (step s i) E (I rest)) :
    ∀ (l : List ι) (s : σ), I l s → Ends (l.foldlM step s) E (I [])
  | [], _, h => h
  | i :: rest, s, h => by
    rw [List.foldlM_cons]
    apply bind' (hstep i rest s h)
    intro s' h'
    exact foldlM' I hstep rest s' h'

end Ends

/-! ## Arithmetic -/

theorem sum64_spec (a b : Nat) : Ends (sum64 a b) Overflows fun c => c = a + b := by
  rw [sum64]
  exact Ends.ite' (fun _ => rfl) (fun _ => rfl)

theorem difference_spec (a b : Nat) :
    Ends (difference a b) Overflows fun c => b ≤ a ∧ c = a - b := by
  rw [difference]
  exact Ends.ite' (fun h => ⟨h, rfl⟩) (fun _ => rfl)

/-! ## Runs -/

section Runs

variable {σ ι ο α : Type}

/-- Gives a machine the inputs one after the other, behind `past`; returns every input with its
answer, latest first, and the last state. -/
def record (step : σ → ι → Except Fault (ο × σ)) (s : σ) :
    List ι → (past : List (ι × ο) := []) → Except Fault (List (ι × ο) × σ)
  | [], past => .ok (past, s)
  | i :: rest, past => do
    let (answer, s) ← step s i
    record step s rest ((i, answer) :: past)

/-- What each step keeps, a run keeps. The property may speak of the inputs still to come. -/
theorem Ends.record {step : σ → ι → Except Fault (ο × σ)} {E : Fault → Prop}
    (I : List ι → List (ι × ο) → σ → Prop)
    (hstep : ∀ i rest past s, I (i :: rest) past s →
      Ends (step s i) E fun r => I rest ((i, r.1) :: past) r.2) :
    ∀ (inputs : List ι) (past : List (ι × ο)) (s : σ), I inputs past s →
      Ends (record step s inputs past) E fun r => I [] r.1 r.2
  | [], _, _, h => h
  | i :: rest, past, s, h => by
    -- The past grows by the step, so the induction is for every past.
    rw [MemoryHierarchy.record]
    apply bind' (hstep i rest past s h)
    intro r hr
    exact Ends.record I hstep rest _ _ hr

/-- Every answer of a history is in relation `P` to what was asked before it. -/
def Each (P : List (ι × ο) → ι → ο → Prop) : List (ι × ο) → Prop
  | [] => True
  | (i, answer) :: past => P past i answer ∧ Each P past

theorem length_record (step : σ → ι → Except Fault (ο × σ)) (s : σ) (inputs : List ι)
    (past : List (ι × ο)) :
    Ends (record step s inputs past) (fun _ => True) fun r =>
      r.1.length = past.length + inputs.length := by
  apply Ends.record (fun rest seen _ => seen.length + rest.length = past.length + inputs.length)
    ?_ inputs past s rfl
  intro i rest seen s' hlength
  apply Ends.any.weaken
  intro r _
  rw [List.length_cons] at hlength ⊢
  omega

/-- A history lists the inputs, latest first. -/
theorem inputs_record (step : σ → ι → Except Fault (ο × σ)) (s : σ) (inputs : List ι) :
    Ends (record step s inputs) (fun _ => True) fun r => r.1.map Prod.fst = inputs.reverse := by
  apply Ends.record (fun rest seen _ => rest.reverse ++ seen.map Prod.fst = inputs.reverse)
    ?_ inputs [] s (List.append_nil _)
  intro i rest seen s' hinputs
  apply Ends.any.weaken
  intro r _
  rw [← hinputs, List.reverse_cons, List.append_assoc]
  rfl

theorem Each.imp {P Q : List (ι × ο) → ι → ο → Prop}
    (h : ∀ past i answer, P past i answer → Q past i answer) :
    ∀ {history : List (ι × ο)}, Each P history → Each Q history
  | [], _ => trivial
  | _ :: _, hP => ⟨h _ _ _ hP.1, hP.2.imp h⟩

theorem Each.and {P Q : List (ι × ο) → ι → ο → Prop} : ∀ {history : List (ι × ο)},
    Each P history → Each Q history →
      Each (fun past i answer => P past i answer ∧ Q past i answer) history
  | [], _, _ => trivial
  | _ :: _, h, h' => ⟨⟨h.1, h'.1⟩, h.2.and h'.2⟩

/-- Two histories of the same inputs, compared answer by answer. -/
theorem Each.forall₂ {ο' : Type} {P : List (ι × ο) → ι → ο → Prop}
    {P' : List (ι × ο') → ι → ο' → Prop} {R : ι → ο → ο' → Prop}
    (hR : ∀ past past' i answer answer', past.map Prod.fst = past'.map Prod.fst →
      P past i answer → P' past' i answer' → R i answer answer') :
    ∀ {history : List (ι × ο)} {history' : List (ι × ο')},
      history.map Prod.fst = history'.map Prod.fst → Each P history → Each P' history' →
      List.Forall₂ (fun e e' => e.1 = e'.1 ∧ R e.1 e.2 e'.2) history history'
  | [], [], _, _, _ => .nil
  | (i, answer) :: past, (i', answer') :: past', hinputs, h, h' => by
    obtain ⟨rfl, hpast⟩ := List.cons.inj hinputs
    exact .cons ⟨rfl, hR past past' i answer answer' hpast h.1 h'.1⟩
      (Each.forall₂ hR hpast h.2 h'.2)

/-- What the latest step says comes before what the past says. -/
theorem findSome?_cons_getD (word? : ι × ο → Option α) (entry : ι × ο) (past : List (ι × ο))
    (a : α) :
    ((entry :: past).findSome? word?).getD a
      = (word? entry).getD ((past.findSome? word?).getD a) := by
  rw [List.findSome?_cons]
  cases word? entry <;> rfl

/-! ## Two machines -/

/-- Two machines that take the same inputs. -/
def sideBySide {σ' ο' : Type} (step : σ → ι → Except Fault (ο × σ))
    (step' : σ' → ι → Except Fault (ο' × σ')) (s : σ × σ') (i : ι) :
    Except Fault ((ο × ο') × σ × σ') := do
  let (answer, first) ← step s.1 i
  let (answer', second) ← step' s.2 i
  return ((answer, answer'), first, second)

theorem Ends.sideBySide {σ' ο' : Type} {step : σ → ι → Except Fault (ο × σ)}
    {step' : σ' → ι → Except Fault (ο' × σ')} {s : σ × σ'} {i : ι} {E : Fault → Prop}
    {P : ο × σ → Prop} {Q : (ο × ο') × σ × σ' → Prop} (h : Ends (step s.1 i) E P)
    (h' : ∀ answer first, step s.1 i = .ok (answer, first) → P (answer, first) →
      Ends (step' s.2 i) E fun r => Q ((answer, r.1), first, r.2)) :
    Ends (sideBySide step step' s i) E Q := by
  apply bind' h.and_eq
  intro r hr
  obtain ⟨answer, first⟩ := r
  apply bind' (h' answer first hr.2 hr.1)
  intro r' hr'
  exact pure' hr'

end Runs

end MemoryHierarchy
