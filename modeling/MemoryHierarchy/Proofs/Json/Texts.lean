import MemoryHierarchy.Proofs.Json.Numbers
import MemoryHierarchy.Proofs.Json.Strings
import MemoryHierarchy.Proofs.Json.Values

/-!
Which texts hold which values.

`Written` is the grammar of JSON texts: the tokens of one value, each spelled as the grammar of its
kind says, with any blanks before, between and behind them. `parse?` finds a value exactly in the
texts in which it is written (`parse?_eq_some_iff`). The scanner takes every token as far as it can.
That is as far as it goes: only a number can be taken on by what follows it, only another number
does so, and no value has two numbers side by side (`numbersApart_of_run`).
-/

namespace MemoryHierarchy.Json

/-- The spellings of a token. -/
inductive Token.Spelling : Token → List Char → Prop
  | openObject : Spelling .openObject ['\x7b']
  | closeObject : Spelling .closeObject ['\x7d']
  | openArray : Spelling .openArray ['[']
  | closeArray : Spelling .closeArray [']']
  | comma : Spelling .comma [',']
  | colon : Spelling .colon [':']
  | null : Spelling .null ['n', 'u', 'l', 'l']
  | true : Spelling (.bool true) ['t', 'r', 'u', 'e']
  | false : Spelling (.bool false) ['f', 'a', 'l', 's', 'e']
  | number {value? : Option Nat} {w : List Char} :
    Numeral value? w → Spelling (.number value?) w
  | text {value? : Option String} {w : List Char} :
    Quoted value? w → Spelling (.text value?) ('"' :: w)

/-- The tokens stand in the text in this order, with nothing but blanks around them. -/
inductive Spaced : List Token → List Char → Prop
  | done : Spaced [] []
  | blank {c : Char} {ts : List Token} {cs : List Char} :
    isBlank c = true → Spaced ts cs → Spaced ts (c :: cs)
  | token {t : Token} {w : List Char} {ts : List Token} {cs : List Char} :
    t.Spelling w → Spaced ts cs → Spaced (t :: ts) (w ++ cs)

/-- The text holds this value and nothing else. -/
def Written (v : Json) (text : String) : Prop := Spaced v.tokens text.toList

/-! ## The first token -/

/-- The token is a number, which more digits would go on with. -/
def Token.isNumber : Token → Bool
  | .number _ => Bool.true
  | _ => Bool.false

theorem first?_of_number {c : Char} (h : c.isDigit = true ∨ c = '-') (cs : List Char) :
    Token.first? (c :: cs)
      = (readNumber (c :: cs)).map fun (value?, rest) => (.number value?, rest) := by
  rw [Token.first?.eq_def]
  split
  case h_11 => rfl
  all_goals
    next heq =>
      obtain ⟨rfl, -⟩ := List.cons.inj heq
      rcases h with h | h <;> cases h

theorem first?_complete {t : Token} {w rest : List Char} (h : t.Spelling w)
    (hrest : t.isNumber = true → NoNumeral rest) : Token.first? (w ++ rest) = some (t, rest) := by
  cases h with
  | number hnumeral =>
    obtain ⟨c, w, rfl, hc⟩ := hnumeral.head
    rw [List.cons_append, first?_of_number hc, ← List.cons_append,
      readNumber_complete hnumeral (hrest rfl), Option.map_some]
  | text hquoted =>
    rw [List.cons_append, Token.first?, readText_eq_some_iff.mpr ⟨_, rfl, hquoted⟩, Option.map_some]
  | _ => rfl

theorem first?_sound {t : Token} {cs rest : List Char} (h : Token.first? cs = some (t, rest)) :
    ∃ w, cs = w ++ rest ∧ t.Spelling w := by
  rw [Token.first?.eq_def] at h
  split at h
  case h_7 =>
    obtain ⟨⟨value?, rest⟩, hread, he⟩ := Option.map_eq_some_iff.mp h
    obtain ⟨rfl, rfl⟩ := Prod.mk.inj he
    obtain ⟨w, rfl, hquoted⟩ := readText_eq_some_iff.mp hread
    exact ⟨_, rfl, .text hquoted⟩
  case h_11 =>
    obtain ⟨⟨value?, rest⟩, hread, he⟩ := Option.map_eq_some_iff.mp h
    obtain ⟨rfl, rfl⟩ := Prod.mk.inj he
    obtain ⟨w, rfl, hnumeral⟩ := readNumber_sound hread
    exact ⟨_, rfl, .number hnumeral⟩
  all_goals
    obtain ⟨rfl, rfl⟩ := Prod.mk.inj (Option.some.inj h)
    exact ⟨_, rfl, by constructor⟩

/-! ## All tokens -/

/-- No number stands directly behind another one. -/
def NumbersApart : List Token → Prop
  | [] => True
  | t :: ts => (t.isNumber = true → ∀ u ∈ ts.head?, u.isNumber = false) ∧ NumbersApart ts

theorem step_next_number (frames : List Frame) (v : Json) (n : Option Nat) :
    Reading.step ⟨frames, .next v⟩ (.number n) = none := by
  match frames with
  | [] | .array _ :: _ | .object _ _ :: _ => rfl

theorem step_number {r next : Reading} {n m : Option Nat} (h : r.step (.number n) = some next) :
    next.step (.number m) = none := by
  rw [Reading.step.eq_def] at h
  split at h
  case h_1 | h_3 =>
    obtain rfl := Option.some.inj h
    exact step_next_number _ _ m
  all_goals contradiction

theorem numbersApart_of_run {ts : List Token} {r r' : Reading}
    (h : ts.foldlM Reading.step r = some r') : NumbersApart ts := by
  induction ts generalizing r with
  | nil => trivial
  | cons t ts ih =>
    obtain ⟨next, hstep, hrest⟩ := Option.bind_eq_some_iff.mp h
    refine ⟨fun ht u hu => ?_, ih hrest⟩
    obtain ⟨ts, rfl⟩ := List.head?_eq_some_iff.mp hu
    obtain ⟨_, hsecond, -⟩ := Option.bind_eq_some_iff.mp hrest
    cases t with
    | number n =>
      cases u with
      | number m => cases hsecond.symm.trans (step_number hstep)
      | _ => rfl
    | _ => cases ht

theorem isBlank_iff {c : Char} :
    isBlank c = true ↔ c = ' ' ∨ c = '\t' ∨ c = '\n' ∨ c = '\r' := by
  simp only [isBlank, Bool.or_eq_true, beq_iff_eq, or_assoc]

theorem Token.Spelling.head {t : Token} {w : List Char} (h : t.Spelling w) :
    ∃ c rest, w = c :: rest ∧ isBlank c = Bool.false ∧ (t.isNumber = Bool.false → NoNumeral w) := by
  cases h with
  | number hnumeral =>
    obtain ⟨c, rest, rfl, hc⟩ := hnumeral.head
    refine ⟨c, rest, rfl, Bool.eq_false_iff.mpr fun hblank => ?_, fun ht => by cases ht⟩
    obtain rfl | rfl | rfl | rfl := isBlank_iff.mp hblank <;> rcases hc with hc | hc <;> cases hc
  | _ => exact ⟨_, _, rfl, rfl, fun _ => by simp [NoNumeral]⟩

/-- Only a number goes on with a number. -/
theorem Spaced.noNumeral {ts : List Token} {cs : List Char} (h : Spaced ts cs)
    (hts : ∀ t ∈ ts.head?, t.isNumber = false) : NoNumeral cs := by
  cases h with
  | done => exact nofun
  | blank hblank =>
    obtain rfl | rfl | rfl | rfl := isBlank_iff.mp hblank <;> simp [NoNumeral]
  | token hspelling =>
    obtain ⟨c, rest, rfl, -, hapart⟩ := hspelling.head
    exact hapart (hts _ rfl)

theorem tokens?_complete {ts : List Token} {cs : List Char} (h : Spaced ts cs)
    (hts : NumbersApart ts) : tokens? cs = some ts := by
  induction h with
  | done => rw [tokens?]
  | blank hblank _ ih => rw [tokens?, if_pos hblank, ih hts]
  | @token t w ts cs hspelling hspaced ih =>
    obtain ⟨c, rest, hw, hblank, -⟩ := hspelling.head
    have hfirst := first?_complete hspelling fun ht => hspaced.noNumeral (hts.1 ht)
    rw [hw, List.cons_append] at hfirst ⊢
    rw [tokens?, if_neg (by rw [hblank]; exact Bool.false_ne_true)]
    split
    · next t' rest' heq =>
      obtain ⟨rfl, rfl⟩ := Prod.mk.inj (Option.some.inj (hfirst.symm.trans heq))
      rw [ih hts.2, Option.map_some]
    · next heq => cases hfirst.symm.trans heq

theorem tokens?_sound {ts : List Token} {cs : List Char} (h : tokens? cs = some ts) :
    Spaced ts cs := by
  fun_induction tokens? cs generalizing ts with
  | case1 =>
    obtain rfl := Option.some.inj h
    exact .done
  | case2 c cs hblank ih => exact .blank hblank (ih h)
  | case3 c cs hblank t rest hfirst _ ih =>
    obtain ⟨ts, hts, rfl⟩ := Option.map_eq_some_iff.mp h
    obtain ⟨w, hw, hspelling⟩ := first?_sound hfirst
    rw [hw]
    exact .token hspelling (ih hts)
  | case4 => contradiction

/-! ## Texts -/

theorem parse?_eq_some_iff {text : String} {v : Json} : parse? text = some v ↔ v.Written text := by
  constructor
  · intro h
    obtain ⟨ts, hts, hv⟩ := Option.bind_eq_some_iff.mp h
    obtain rfl := ofTokens?_eq_some_iff.mp hv
    exact tokens?_sound hts
  · intro h
    have hapart := numbersApart_of_run (Reading.run_value v [])
    rw [parse?, tokens?_complete h hapart]
    exact ofTokens?_eq_some_iff.mpr rfl

end MemoryHierarchy.Json
