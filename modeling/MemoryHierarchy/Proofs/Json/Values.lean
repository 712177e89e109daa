import MemoryHierarchy.Json.Value

/-!
Values and their tokens.

A point in the reading of a value tells which tokens were passed (`Reading.passed`), and every step
adds its token to them (`step_passed`), so a value is read from no tokens but its own. That its own
are taken, from any point at which a value may stand, is an induction on the value (`run_value`,
with `run_items` and `run_fields` for the containers). Together: `ofTokens?_eq_some_iff`.
-/

namespace MemoryHierarchy.Json

/-- The tokens of a field. -/
def memberTokens (member : Option String × Json) : List Token :=
  .text member.1 :: .colon :: member.2.tokens

/-- The tokens of items behind which others stand. -/
def itemsPassed (items : List Json) : List Token :=
  items.flatMap fun v => v.tokens ++ [.comma]

/-- The tokens of fields behind which others stand. -/
def membersPassed (members : List (Option String × Json)) : List Token :=
  members.flatMap fun m => memberTokens m ++ [.comma]

theorem itemTokens_append (items : List Json) (last : Json) :
    itemTokens (items ++ [last]) = itemsPassed items ++ last.tokens := by
  induction items with
  | nil => rfl
  | cons v items ih =>
    rw [itemsPassed, List.flatMap_cons, List.append_assoc, ← itemsPassed, ← ih]
    cases items <;> simp [itemTokens]

theorem fieldTokens_append (members : List (Option String × Json))
    (last : Option String × Json) :
    fieldTokens (members ++ [last]) = membersPassed members ++ memberTokens last := by
  induction members with
  | nil => rfl
  | cons m members ih =>
    rw [membersPassed, List.flatMap_cons, List.append_assoc, ← membersPassed, ← ih]
    cases members <;> simp [fieldTokens, memberTokens]

/-! ## What was passed -/

/-- The tokens of a container, up to the value that is read next. -/
def Frame.passed : Frame → List Token
  | .array before => .openArray :: itemsPassed before.reverse
  | .object before name =>
    .openObject :: membersPassed before.reverse ++ [.text name, .colon]

/-- The tokens behind those of the open containers. -/
def Expected.passed : Expected → List Token
  | .value => []
  | .firstItem => [.openArray]
  | .firstName => [.openObject]
  | .name before => .openObject :: membersPassed before.reverse
  | .colon before label => .openObject :: membersPassed before.reverse ++ [.text label]
  | .next v => v.tokens

namespace Reading

/-- The tokens that lead to this point. -/
def passed (r : Reading) : List Token :=
  r.frames.reverse.flatMap Frame.passed ++ r.expected.passed

theorem beginValue_passed {frames : List Frame} {t : Token} {r : Reading}
    (h : beginValue frames t = some r) :
    r.passed = frames.reverse.flatMap Frame.passed ++ [t] := by
  cases t <;> cases h <;> rfl

theorem step_passed {r r' : Reading} {t : Token} (h : r.step t = some r') :
    r'.passed = r.passed ++ [t] := by
  rw [step.eq_def] at h
  split at h
  -- The cases stand in the order of `step`. The first and the third begin a value.
  case h_1 | h_3 =>
    rw [beginValue_passed h]
    simp [passed, Expected.passed, Frame.passed, itemsPassed]
  all_goals cases h
  case h_2 => simp [passed, Expected.passed, tokens, itemTokens]
  case h_4 => simp [passed, Expected.passed, tokens, fieldTokens]
  case h_8 | h_9 =>
    simp [passed, Expected.passed, Frame.passed, tokens, itemTokens_append, itemsPassed]
  all_goals
    simp [passed, Expected.passed, Frame.passed, tokens, memberTokens, fieldTokens_append,
      membersPassed]

theorem run_passed {ts : List Token} {r r' : Reading} (h : ts.foldlM step r = some r') :
    r'.passed = r.passed ++ ts := by
  induction ts generalizing r with
  | nil =>
    obtain rfl := Option.some.inj h
    exact (List.append_nil _).symm
  | cons t ts ih =>
    obtain ⟨next, hstep, hrest⟩ := Option.bind_eq_some_iff.mp h
    rw [ih hrest, step_passed hstep, List.append_assoc, List.singleton_append]

/-! ## Reading a value from its tokens -/

theorem tokens_head (v : Json) : ∃ t ts, v.tokens = t :: ts ∧ t ≠ .closeArray := by
  cases v with
  | array items => exact ⟨.openArray, itemTokens items ++ [.closeArray], rfl, nofun⟩
  | object fields => exact ⟨.openObject, fieldTokens fields ++ [.closeObject], rfl, nofun⟩
  | _ => exact ⟨_, [], rfl, nofun⟩

theorem itemTokens_head (v : Json) (items : List Json) :
    ∃ t ts, itemTokens (v :: items) = t :: ts ∧ t ≠ .closeArray := by
  obtain ⟨t, ts, hts, ht⟩ := tokens_head v
  cases items with
  | nil => exact ⟨t, ts, hts, ht⟩
  | cons next items => exact ⟨t, _, by rw [itemTokens, hts, List.cons_append], ht⟩

/-- Where the first item of an array may stand, its first token is taken as that of a value. -/
theorem step_firstItem {t : Token} (h : t ≠ .closeArray) (frames : List Frame) :
    step ⟨frames, .firstItem⟩ t = step ⟨.array [] :: frames, .value⟩ t := by
  rw [step, step]
  exact h

theorem run_firstItem (v : Json) (items : List Json) (frames : List Frame) (rest : List Token) :
    (itemTokens (v :: items) ++ rest).foldlM step ⟨frames, .firstItem⟩
      = (itemTokens (v :: items) ++ rest).foldlM step ⟨.array [] :: frames, .value⟩ := by
  obtain ⟨t, ts, hts, ht⟩ := itemTokens_head v items
  rw [hts, List.cons_append, List.foldlM_cons, List.foldlM_cons, step_firstItem ht]

theorem run_firstName (name : Option String) (v : Json) (fields : List (Option String × Json))
    (frames : List Frame) (rest : List Token) :
    (fieldTokens ((name, v) :: fields) ++ rest).foldlM step ⟨frames, .firstName⟩
      = (fieldTokens ((name, v) :: fields) ++ rest).foldlM step ⟨frames, .name []⟩ := by
  cases fields <;> rfl

-- An induction on the value. The containers around it and what was read before stay general.
mutual

theorem run_value : ∀ (v : Json) (frames : List Frame),
    v.tokens.foldlM step ⟨frames, .value⟩ = some ⟨frames, .next v⟩
  | .null, _ | .bool _, _ | .number _, _ | .text _, _ => rfl
  | .array [], _ => rfl
  | .array (v :: items), frames => by
    have hitems := run_items (v :: items) [] frames (List.cons_ne_nil _ _)
    rwa [← run_firstItem] at hitems
  | .object [], _ => rfl
  | .object ((name, v) :: fields), frames => by
    have hfields := run_fields ((name, v) :: fields) [] frames (List.cons_ne_nil _ _)
    rwa [← run_firstName] at hfields

theorem run_items : ∀ (items before : List Json) (frames : List Frame), items ≠ [] →
    (itemTokens items ++ [Token.closeArray]).foldlM step ⟨.array before :: frames, .value⟩
      = some ⟨frames, .next (.array (before.reverse ++ items))⟩
  | [], _, _, h => absurd rfl h
  | [v], before, frames, _ => by
    rw [itemTokens, List.foldlM_append, run_value v, ← List.reverse_cons]
    rfl
  | v :: next :: items, before, frames, _ => by
    have hitems := run_items (next :: items) (v :: before) frames (List.cons_ne_nil _ _)
    rw [List.reverse_cons, List.append_assoc, List.singleton_append] at hitems
    rw [itemTokens, List.append_assoc, List.foldlM_append, run_value v]
    exact hitems

theorem run_fields : ∀ (fields before : List (Option String × Json)) (frames : List Frame),
    fields ≠ [] →
    (fieldTokens fields ++ [Token.closeObject]).foldlM step ⟨frames, .name before⟩
      = some ⟨frames, .next (.object (before.reverse ++ fields))⟩
  | [], _, _, h => absurd rfl h
  | [(name, v)], before, frames, _ => by
    -- The name and the colon are passed in two steps.
    change List.foldlM step ⟨.object before name :: frames, .value⟩ (v.tokens ++ _) = _
    rw [List.foldlM_append, run_value v, ← List.reverse_cons]
    rfl
  | (name, v) :: next :: fields, before, frames, _ => by
    have hfields := run_fields (next :: fields) ((name, v) :: before) frames (List.cons_ne_nil _ _)
    rw [List.reverse_cons, List.append_assoc, List.singleton_append] at hfields
    rw [fieldTokens, List.append_assoc]
    change List.foldlM step ⟨.object before name :: frames, .value⟩ (v.tokens ++ _) = _
    rw [List.foldlM_append, run_value v]
    exact hfields

end

end Reading

theorem ofTokens?_eq_some_iff {ts : List Token} {v : Json} :
    ofTokens? ts = some v ↔ ts = v.tokens := by
  constructor
  · intro h
    obtain ⟨⟨frames, expected⟩, hrun, hfinish⟩ := Option.bind_eq_some_iff.mp h
    have hpassed := Reading.run_passed hrun
    rw [Reading.finish?.eq_def] at hfinish
    split at hfinish
    · next w heq =>
      obtain ⟨rfl, rfl⟩ := Reading.mk.inj heq
      obtain rfl := Option.some.inj hfinish
      exact hpassed.symm
    · contradiction
  · rintro rfl
    rw [ofTokens?, Reading.start, Reading.run_value]
    rfl

end MemoryHierarchy.Json
