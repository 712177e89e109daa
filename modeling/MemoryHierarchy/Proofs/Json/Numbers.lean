import Mathlib.Data.List.Basic
import MemoryHierarchy.Json.Number

/-!
Spellings of numbers.

`Numeral` is the grammar of numbers, with the value of each: the plain decimal of a natural number
spells that number, and a spelling with a sign, a fraction or an exponent spells none of interest.
`readNumber` takes a numeral from the front of a text (`readNumber_sound`), and takes the whole of
it if what follows cannot go on with it (`readNumber_complete`).
-/

namespace MemoryHierarchy.Json

/-- Digits, at least one. -/
def Digits (cs : List Char) : Prop := cs ≠ [] ∧ ∀ c ∈ cs, c.isDigit = true

/-- The whole part of a number: a zero, or digits that begin with another one. -/
def Whole (cs : List Char) : Prop := cs = ['0'] ∨ Digits cs ∧ cs.head? ≠ some '0'

/-- The fraction of a number, if it has one. -/
inductive Fraction : List Char → Prop
  | absent : Fraction []
  | digits {ds : List Char} : Digits ds → Fraction ('.' :: ds)

/-- The exponent of a number, if it has one. -/
inductive Exponent : List Char → Prop
  | absent : Exponent []
  | digits {mark : Char} {sign ds : List Char} : mark = 'e' ∨ mark = 'E' →
    sign ∈ [[], ['+'], ['-']] → Digits ds → Exponent (mark :: (sign ++ ds))

/-- The spellings of a number, and its value if it is written plainly. -/
inductive Numeral : Option Nat → List Char → Prop
  | plain (n : Nat) : Numeral (some n) (Nat.toDigits 10 n)
  | other {sign whole fraction exponent : List Char} : sign = [] ∨ sign = ['-'] →
    Whole whole → Fraction fraction → Exponent exponent → sign ++ fraction ++ exponent ≠ [] →
    Numeral none (sign ++ whole ++ fraction ++ exponent)

/-- No digit follows. -/
def NoDigit (rest : List Char) : Prop := ∀ c ∈ rest.head?, c.isDigit = false

/-- Nothing follows that could go on with a number. -/
def NoNumeral (rest : List Char) : Prop :=
  ∀ c ∈ rest.head?, c.isDigit = false ∧ c ≠ '.' ∧ c ≠ 'e' ∧ c ≠ 'E'

theorem NoNumeral.noDigit {rest : List Char} (h : NoNumeral rest) : NoDigit rest :=
  fun c hc => (h c hc).1

/-! ## Plain decimals -/

theorem digitChar_of_isDigit {c : Char} (h : c.isDigit = true) :
    c.toNat - '0'.toNat < 10 ∧ Nat.digitChar (c.toNat - '0'.toNat) = c := by
  simp only [Char.isDigit, Bool.and_eq_true, decide_eq_true_eq, ge_iff_le,
    UInt32.le_iff_toNat_le] at h
  change 48 ≤ c.toNat ∧ c.toNat ≤ 57 at h
  change c.toNat - 48 < 10 ∧ Nat.digitChar (c.toNat - 48) = c
  refine ⟨by omega, Char.toNat_inj.mp ?_⟩
  rw [Nat.toNat_digitChar_of_lt_ten (by omega)]
  omega

theorem decimal_eq (cs : List Char) : decimal cs = Nat.ofDigitChars 10 cs 0 :=
  Nat.ofDigitChars_eq_foldl.symm

theorem decimal_toDigits (n : Nat) : decimal (Nat.toDigits 10 n) = n := by
  rw [decimal_eq, Nat.ofDigitChars_ten_toDigits]

/-- Digits behind a plain decimal other than zero make a plain decimal. -/
theorem toDigits_append {n : Nat} (hn : 0 < n) {cs : List Char} (h : ∀ c ∈ cs, c.isDigit = true) :
    Nat.toDigits 10 n ++ cs = Nat.toDigits 10 (Nat.ofDigitChars 10 cs n) := by
  induction cs generalizing n with
  | nil => rw [List.append_nil, Nat.ofDigitChars_nil]
  | cons c cs ih =>
    obtain ⟨hc, hcs⟩ := List.forall_mem_cons.mp h
    obtain ⟨hlt, hchar⟩ := digitChar_of_isDigit hc
    have hone := Nat.toDigits_append_toDigits (by decide : 1 < 10) hn hlt
    rw [Nat.toDigits_of_lt_base hlt, hchar] at hone
    rw [Nat.ofDigitChars_cons, ← ih (by omega) hcs, ← hone, List.append_assoc,
      List.singleton_append]

theorem toDigits_decimal {cs : List Char} (h : Whole cs) : Nat.toDigits 10 (decimal cs) = cs := by
  obtain rfl | ⟨⟨hne, hdigits⟩, hhead⟩ := h
  · rfl
  cases cs with
  | nil => contradiction
  | cons c cs =>
    obtain ⟨hc, hcs⟩ := List.forall_mem_cons.mp hdigits
    obtain ⟨hlt, hchar⟩ := digitChar_of_isDigit hc
    have hpos : 0 < c.toNat - '0'.toNat := by
      refine Nat.pos_of_ne_zero fun hzero => hhead ?_
      rw [← hchar, hzero]
      rfl
    rw [decimal_eq, Nat.ofDigitChars_cons, Nat.mul_zero, Nat.zero_add, ← toDigits_append hpos hcs,
      Nat.toDigits_of_lt_base hlt, hchar, List.singleton_append]

theorem toDigits_head (n : Nat) (hn : 0 < n) : (Nat.toDigits 10 n).head? ≠ some '0' := by
  induction n using Nat.strongRecOn with
  | _ n ih =>
    by_cases hlt : n < 10
    · rw [Nat.toDigits_of_lt_base hlt]
      intro h
      have hchar := congrArg Char.toNat (Option.some.inj h)
      rw [Nat.toNat_digitChar_of_lt_ten hlt] at hchar
      change 48 + n = 48 at hchar
      omega
    · have hpos : 0 < n / 10 := by omega
      rw [Nat.toDigits_of_base_le (by decide) (by omega),
        List.head?_append_of_ne_nil _ Nat.toDigits_ne_nil]
      exact ih (n / 10) (by omega) hpos

theorem whole_toDigits (n : Nat) : Whole (Nat.toDigits 10 n) := by
  rcases Nat.eq_zero_or_pos n with rfl | hn
  · exact .inl rfl
  · refine .inr ⟨⟨Nat.toDigits_ne_nil, fun c hc => ?_⟩, toDigits_head n hn⟩
    exact Nat.isDigit_of_mem_toDigits (by decide) (by decide) hc

theorem Whole.head {cs : List Char} (h : Whole cs) :
    ∃ c rest, cs = c :: rest ∧ c.isDigit = true := by
  obtain rfl | ⟨⟨hne, hdigits⟩, -⟩ := h
  · exact ⟨'0', [], rfl, rfl⟩
  · obtain ⟨c, rest, rfl⟩ := List.exists_cons_of_ne_nil hne
    exact ⟨c, rest, rfl, hdigits c List.mem_cons_self⟩

/-! ## Reading the parts -/

theorem readDigits_complete {ds rest : List Char} (h : Digits ds) (hrest : NoDigit rest) :
    readDigits (ds ++ rest) = some (ds, rest) := by
  have hstop : rest.takeWhile Char.isDigit = [] ∧ rest.dropWhile Char.isDigit = rest := by
    cases rest with
    | nil => exact ⟨rfl, rfl⟩
    | cons c rest => simp [hrest c rfl]
  rw [readDigits, List.takeWhile_append_of_pos h.2, List.dropWhile_append_of_pos h.2, hstop.1,
    hstop.2, List.append_nil, if_neg (by simpa using h.1)]

theorem readDigits_sound {cs ds rest : List Char} (h : readDigits cs = some (ds, rest)) :
    cs = ds ++ rest ∧ Digits ds := by
  rw [readDigits] at h
  split at h
  · contradiction
  · next hne =>
    obtain ⟨rfl, rfl⟩ := Prod.mk.inj (Option.some.inj h)
    refine ⟨List.takeWhile_append_dropWhile.symm, by simpa using hne, fun c hc => ?_⟩
    exact List.all_eq_true.mp List.all_takeWhile c hc

theorem readWhole_of_ne {cs : List Char} (h : cs.head? ≠ some '0') :
    readWhole cs = readDigits cs := by
  rw [readWhole]
  rintro rest rfl
  exact h rfl

theorem readWhole_complete {ds rest : List Char} (h : Whole ds) (hrest : NoDigit rest) :
    readWhole (ds ++ rest) = some (ds, rest) := by
  obtain rfl | ⟨hdigits, hhead⟩ := h
  · rfl
  · rw [readWhole_of_ne, readDigits_complete hdigits hrest]
    rwa [List.head?_append_of_ne_nil _ hdigits.1]

theorem readWhole_sound {cs ds rest : List Char} (h : readWhole cs = some (ds, rest)) :
    cs = ds ++ rest ∧ Whole ds := by
  by_cases hhead : cs.head? = some '0'
  · obtain ⟨cs, rfl⟩ := List.head?_eq_some_iff.mp hhead
    obtain ⟨rfl, rfl⟩ := Prod.mk.inj (Option.some.inj h)
    exact ⟨rfl, .inl rfl⟩
  · rw [readWhole_of_ne hhead] at h
    obtain ⟨rfl, hdigits⟩ := readDigits_sound h
    refine ⟨rfl, .inr ⟨hdigits, fun hzero => hhead ?_⟩⟩
    rw [List.head?_append, hzero, Option.some_or]

theorem readFraction_complete {fraction rest : List Char} (h : Fraction fraction)
    (hdigit : NoDigit rest) (hpoint : rest.head? ≠ some '.') :
    readFraction (fraction ++ rest) = some (!fraction.isEmpty, rest) := by
  cases h with
  | absent =>
    rw [List.nil_append, readFraction]
    · rfl
    · rintro rest rfl
      exact hpoint rfl
  | digits hdigits =>
    rw [List.cons_append, readFraction, readDigits_complete hdigits hdigit]
    rfl

theorem readFraction_sound {cs rest : List Char} {b : Bool}
    (h : readFraction cs = some (b, rest)) :
    ∃ fraction, cs = fraction ++ rest ∧ Fraction fraction ∧ b = !fraction.isEmpty := by
  rw [readFraction.eq_def] at h
  split at h
  · obtain ⟨⟨ds, rest⟩, hds, he⟩ := Option.map_eq_some_iff.mp h
    obtain ⟨rfl, rfl⟩ := Prod.mk.inj he
    obtain ⟨rfl, hdigits⟩ := readDigits_sound hds
    exact ⟨'.' :: ds, rfl, .digits hdigits, rfl⟩
  · obtain ⟨rfl, rfl⟩ := Prod.mk.inj (Option.some.inj h)
    exact ⟨[], rfl, .absent, rfl⟩

theorem skipSign_complete {sign ds rest : List Char} (hsign : sign ∈ [[], ['+'], ['-']])
    (h : Digits ds) : skipSign (sign ++ ds ++ rest) = ds ++ rest := by
  simp only [List.mem_cons, List.not_mem_nil, or_false] at hsign
  obtain rfl | rfl | rfl := hsign
  · obtain ⟨hne, hdigits⟩ := h
    cases ds with
    | nil => contradiction
    | cons c ds =>
      have hc := hdigits c List.mem_cons_self
      rw [List.nil_append, List.cons_append, skipSign]
      · rintro _ hplus
        obtain ⟨rfl, -⟩ := List.cons.inj hplus
        contradiction
      · rintro _ hminus
        obtain ⟨rfl, -⟩ := List.cons.inj hminus
        contradiction
  · rfl
  · rfl

theorem skipSign_sound (cs : List Char) :
    ∃ sign, sign ∈ [[], ['+'], ['-']] ∧ cs = sign ++ skipSign cs := by
  rw [skipSign.eq_def]
  split
  · exact ⟨['+'], by decide, rfl⟩
  · exact ⟨['-'], by decide, rfl⟩
  · exact ⟨[], by decide, rfl⟩

theorem readExponent_marked {mark : Char} (h : mark = 'e' ∨ mark = 'E') (cs : List Char) :
    readExponent (mark :: cs) = (readDigits (skipSign cs)).map fun (_, rest) => (true, rest) := by
  obtain rfl | rfl := h <;> rfl

theorem readExponent_unmarked {cs : List Char} (h : ∀ c ∈ cs.head?, c ≠ 'e' ∧ c ≠ 'E') :
    readExponent cs = some (false, cs) := by
  rw [readExponent]
  · rintro rest rfl
    exact (h 'e' rfl).1 rfl
  · rintro rest rfl
    exact (h 'E' rfl).2 rfl

theorem readExponent_complete {exponent rest : List Char} (h : Exponent exponent)
    (hrest : NoNumeral rest) :
    readExponent (exponent ++ rest) = some (!exponent.isEmpty, rest) := by
  cases h with
  | absent => exact readExponent_unmarked fun c hc => (hrest c hc).2.2
  | digits hmark hsign hdigits =>
    rw [List.cons_append, readExponent_marked hmark, skipSign_complete hsign hdigits,
      readDigits_complete hdigits hrest.noDigit]
    rfl

theorem readExponent_sound {cs rest : List Char} {b : Bool}
    (h : readExponent cs = some (b, rest)) :
    ∃ exponent, cs = exponent ++ rest ∧ Exponent exponent ∧ b = !exponent.isEmpty := by
  by_cases hmark : ∃ mark ds, (mark = 'e' ∨ mark = 'E') ∧ cs = mark :: ds
  · obtain ⟨mark, ds, hmark, rfl⟩ := hmark
    rw [readExponent_marked hmark] at h
    obtain ⟨⟨digits, rest⟩, hds, he⟩ := Option.map_eq_some_iff.mp h
    obtain ⟨rfl, rfl⟩ := Prod.mk.inj he
    obtain ⟨hsplit, hdigits⟩ := readDigits_sound hds
    obtain ⟨sign, hsign, hskip⟩ := skipSign_sound ds
    rw [hsplit] at hskip
    exact ⟨mark :: (sign ++ digits), by rw [hskip, List.cons_append, List.append_assoc],
      .digits hmark hsign hdigits, rfl⟩
  · rw [readExponent_unmarked] at h
    · obtain ⟨rfl, rfl⟩ := Prod.mk.inj (Option.some.inj h)
      exact ⟨[], rfl, .absent, rfl⟩
    · rintro c hc
      obtain ⟨ds, rfl⟩ := List.head?_eq_some_iff.mp hc
      exact ⟨fun he => hmark ⟨c, ds, .inl he, rfl⟩, fun he => hmark ⟨c, ds, .inr he, rfl⟩⟩

/-! ## Reading a number -/

theorem Exponent.apart {exponent rest : List Char} (h : Exponent exponent)
    (hrest : NoNumeral rest) :
    NoDigit (exponent ++ rest) ∧ (exponent ++ rest).head? ≠ some '.' := by
  cases h with
  | absent => exact ⟨hrest.noDigit, fun hpoint => (hrest '.' hpoint).2.1 rfl⟩
  | digits hmark =>
    rw [List.cons_append, NoDigit, List.head?_cons]
    obtain rfl | rfl := hmark <;> simp

theorem Fraction.noDigit {fraction rest : List Char} (h : Fraction fraction)
    (hrest : NoDigit rest) : NoDigit (fraction ++ rest) := by
  cases h with
  | absent => exact hrest
  | digits =>
    rintro _ ⟨⟩
    rfl

/-- The value of a number without sign, if it is plain. -/
def unsignedValue (whole fraction exponent : List Char) : Option Nat :=
  if fraction ++ exponent = [] then some (decimal whole) else none

theorem readUnsigned_complete {whole fraction exponent rest : List Char} (hwhole : Whole whole)
    (hfraction : Fraction fraction) (hexponent : Exponent exponent) (hrest : NoNumeral rest) :
    readUnsigned (whole ++ fraction ++ exponent ++ rest)
      = some (unsignedValue whole fraction exponent, rest) := by
  obtain ⟨hdigit, hpoint⟩ := hexponent.apart hrest
  rw [readUnsigned, List.append_assoc, List.append_assoc,
    readWhole_complete hwhole (hfraction.noDigit hdigit)]
  simp only [Option.bind_eq_bind, Option.bind_some, readFraction_complete hfraction hdigit hpoint,
    readExponent_complete hexponent hrest, Option.pure_def]
  cases hfraction <;> cases hexponent <;> rfl

theorem readUnsigned_sound {cs rest : List Char} {value? : Option Nat}
    (h : readUnsigned cs = some (value?, rest)) :
    ∃ whole fraction exponent, cs = whole ++ fraction ++ exponent ++ rest
      ∧ Whole whole ∧ Fraction fraction ∧ Exponent exponent
      ∧ value? = unsignedValue whole fraction exponent := by
  simp only [readUnsigned, Option.bind_eq_bind, Option.bind_eq_some_iff, Option.pure_def,
    Option.some.injEq, Prod.mk.injEq, Prod.exists] at h
  obtain ⟨whole, _, h₁, _, _, h₂, _, _, h₃, rfl, rfl⟩ := h
  obtain ⟨rfl, hwhole⟩ := readWhole_sound h₁
  obtain ⟨fraction, rfl, hfraction, rfl⟩ := readFraction_sound h₂
  obtain ⟨exponent, rfl, hexponent, rfl⟩ := readExponent_sound h₃
  refine ⟨whole, fraction, exponent, by simp only [List.append_assoc], hwhole, hfraction,
    hexponent, ?_⟩
  clear h₁ h₂ h₃
  cases hfraction <;> cases hexponent <;> rfl

theorem readNumber_unsigned {cs : List Char} (h : cs.head? ≠ some '-') :
    readNumber cs = readUnsigned cs := by
  rw [readNumber]
  rintro rest rfl
  exact h rfl

theorem Whole.head_ne_minus {whole rest : List Char} (h : Whole whole) :
    (whole ++ rest).head? ≠ some '-' := by
  obtain ⟨c, _, rfl, hc⟩ := h.head
  intro hminus
  obtain rfl := Option.some.inj hminus
  cases hc

theorem readNumber_complete {value? : Option Nat} {cs rest : List Char}
    (h : Numeral value? cs) (hrest : NoNumeral rest) :
    readNumber (cs ++ rest) = some (value?, rest) := by
  cases h with
  | plain n =>
    have hwhole := whole_toDigits n
    have hread := readUnsigned_complete hwhole .absent .absent hrest
    rw [List.append_nil, List.append_nil] at hread
    rw [readNumber_unsigned hwhole.head_ne_minus, hread, unsignedValue, List.append_nil,
      if_pos rfl, decimal_toDigits]
  | @other sign whole fraction exponent hsign hwhole hfraction hexponent hne =>
    have hread := readUnsigned_complete hwhole hfraction hexponent hrest
    obtain rfl | rfl := hsign
    · rw [List.nil_append] at hne
      rw [List.nil_append, readNumber_unsigned, hread, unsignedValue, if_neg hne]
      rw [List.append_assoc, List.append_assoc]
      exact hwhole.head_ne_minus
    · rw [List.singleton_append, List.cons_append, List.cons_append, List.cons_append, readNumber,
        hread]
      rfl

theorem readNumber_sound {cs rest : List Char} {value? : Option Nat}
    (h : readNumber cs = some (value?, rest)) :
    ∃ numeral, cs = numeral ++ rest ∧ Numeral value? numeral := by
  by_cases hminus : cs.head? = some '-'
  · obtain ⟨cs, rfl⟩ := List.head?_eq_some_iff.mp hminus
    obtain ⟨⟨_, rest⟩, hread, he⟩ := Option.map_eq_some_iff.mp h
    obtain ⟨rfl, rfl⟩ := Prod.mk.inj he
    obtain ⟨whole, fraction, exponent, rfl, hwhole, hfraction, hexponent, -⟩ :=
      readUnsigned_sound hread
    exact ⟨['-'] ++ whole ++ fraction ++ exponent, rfl,
      .other (.inr rfl) hwhole hfraction hexponent (List.cons_ne_nil _ _)⟩
  · rw [readNumber_unsigned hminus] at h
    obtain ⟨whole, fraction, exponent, rfl, hwhole, hfraction, hexponent, rfl⟩ :=
      readUnsigned_sound h
    rw [unsignedValue]
    split
    · next hplain =>
      obtain ⟨rfl, rfl⟩ := List.append_eq_nil_iff.mp hplain
      refine ⟨whole, by rw [List.append_nil, List.append_nil], ?_⟩
      have hnumeral := Numeral.plain (decimal whole)
      rwa [toDigits_decimal hwhole] at hnumeral
    · next hother =>
      exact ⟨whole ++ fraction ++ exponent, rfl,
        .other (.inl rfl) hwhole hfraction hexponent hother⟩

/-- A numeral begins with a digit or the sign. -/
theorem Numeral.head {value? : Option Nat} {cs : List Char} (h : Numeral value? cs) :
    ∃ c rest, cs = c :: rest ∧ (c.isDigit = true ∨ c = '-') := by
  cases h with
  | plain n =>
    obtain ⟨c, rest, he, hc⟩ := (whole_toDigits n).head
    exact ⟨c, rest, he, .inl hc⟩
  | other hsign hwhole =>
    obtain ⟨c, _, rfl, hc⟩ := hwhole.head
    obtain rfl | rfl := hsign
    · exact ⟨c, _, rfl, .inl hc⟩
    · exact ⟨'-', _, rfl, .inr rfl⟩

end MemoryHierarchy.Json
