/-!
Acting on the first element of a list that passes a test: changing it in place
(`updateFirst`) and taking it out (`takeFirst?`). Everything else keeps its value and its order.
-/

namespace MemoryHierarchy

variable {α : Type}

/-- Changes the first element that passes the test, if there is one. -/
def updateFirst (test : α → Bool) (change : α → α) : List α → List α
  | [] => []
  | a :: rest => if test a then change a :: rest else a :: updateFirst test change rest

/-- The first element that passes the test, and the list without it. -/
def takeFirst? (test : α → Bool) : List α → Option (α × List α)
  | [] => none
  | a :: rest =>
    if test a then some (a, rest)
    else (takeFirst? test rest).map fun (b, others) => (b, a :: others)

@[simp] theorem length_updateFirst (test : α → Bool) (change : α → α) (l : List α) :
    (updateFirst test change l).length = l.length := by
  induction l with
  | nil => rfl
  | cons a rest ih => simp only [updateFirst]; split <;> simp [ih]

theorem updateFirst_of_all_not {test : α → Bool} (change : α → α) {l : List α}
    (h : ∀ a ∈ l, test a = false) : updateFirst test change l = l := by
  induction l with
  | nil => rfl
  | cons a rest ih => simp_all [updateFirst]

theorem takeFirst?_fst (test : α → Bool) (l : List α) :
    (takeFirst? test l).map Prod.fst = l.find? test := by
  induction l with
  | nil => rfl
  | cons a rest ih =>
    by_cases h : test a <;> simp [takeFirst?, List.find?, h, ← ih, Function.comp_def]

theorem takeFirst?_eq_none_iff {test : α → Bool} {l : List α} :
    takeFirst? test l = none ↔ ∀ a ∈ l, test a = false := by
  rw [← Option.map_eq_none_iff (f := Prod.fst), takeFirst?_fst]
  simp

/-- What is taken out passes the test, and nothing before it does. -/
theorem takeFirst?_eq_some {test : α → Bool} : ∀ {l : List α} {a : α} {others : List α},
    takeFirst? test l = some (a, others) →
      test a = true ∧ ∃ front back, l = front ++ a :: back ∧ others = front ++ back ∧
        ∀ b ∈ front, test b = false
  | [], _, _, h => by simp [takeFirst?] at h
  | b :: rest, a, others, h => by
    rw [takeFirst?] at h
    by_cases hb : test b
    · rw [if_pos hb] at h
      obtain ⟨rfl, rfl⟩ : b = a ∧ rest = others := by simpa using h
      exact ⟨hb, [], rest, rfl, rfl, by simp⟩
    · rw [if_neg hb] at h
      obtain ⟨⟨c, remaining⟩, hrest, heq⟩ := Option.map_eq_some_iff.mp h
      obtain ⟨rfl, rfl⟩ : c = a ∧ b :: remaining = others := by simpa using heq
      obtain ⟨ha, front, back, hl, ho, hf⟩ := takeFirst?_eq_some hrest
      refine ⟨ha, b :: front, back, ?_, ?_, ?_⟩
      · rw [hl, List.cons_append]
      · rw [ho, List.cons_append]
      · intro x hx
        rcases List.mem_cons.mp hx with rfl | hx
        · simpa using hb
        · exact hf x hx

theorem takeFirst?_append {test : α → Bool} {front : List α} (hfront : ∀ b ∈ front, test b = false)
    {a : α} (ha : test a = true) (back : List α) :
    takeFirst? test (front ++ a :: back) = some (a, front ++ back) := by
  induction front with
  | nil => simp [takeFirst?, ha]
  | cons b front ih =>
    have hb := hfront b List.mem_cons_self
    simp [takeFirst?, hb, ih fun x hx => hfront x (List.mem_cons_of_mem _ hx)]

end MemoryHierarchy
