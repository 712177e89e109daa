/-!
Numbers of a JSON text.

A number is a sign, digits without superfluous zeros, a fraction and an exponent, of which only
the digits have to be there. It has a value only if it is written as a plain natural number, with
the digits alone; any other spelling is checked and dropped. Every reader takes its part from the
front of a list of characters and returns what follows it.
-/

namespace MemoryHierarchy.Json

/-- The leading digits, at least one, and what follows them. -/
def readDigits (cs : List Char) : Option (List Char × List Char) :=
  let digits := cs.takeWhile Char.isDigit
  if digits.isEmpty then none else some (digits, cs.dropWhile Char.isDigit)

/-- The whole part of a number: a zero, or digits that begin with another one. -/
def readWhole : List Char → Option (List Char × List Char)
  | '0' :: rest => some (['0'], rest)
  | cs => readDigits cs

/-- Passes over a fraction, if there is one; tells whether there was. -/
def readFraction : List Char → Option (Bool × List Char)
  | '.' :: rest => (readDigits rest).map fun (_, rest) => (true, rest)
  | cs => some (false, cs)

/-- Passes over the sign of an exponent, if there is one. -/
def skipSign : List Char → List Char
  | '+' :: rest => rest
  | '-' :: rest => rest
  | cs => cs

/-- Passes over an exponent, if there is one; tells whether there was. -/
def readExponent : List Char → Option (Bool × List Char)
  | 'e' :: rest => (readDigits (skipSign rest)).map fun (_, rest) => (true, rest)
  | 'E' :: rest => (readDigits (skipSign rest)).map fun (_, rest) => (true, rest)
  | cs => some (false, cs)

/-- The value of decimal digits. -/
def decimal (digits : List Char) : Nat :=
  digits.foldl (fun value digit => 10 * value + (digit.toNat - '0'.toNat)) 0

/-- A number without its sign: its value, if it is plain, and what follows it. -/
def readUnsigned (cs : List Char) : Option (Option Nat × List Char) := do
  let (digits, rest) ← readWhole cs
  let (fraction, rest) ← readFraction rest
  let (exponent, rest) ← readExponent rest
  return (if fraction || exponent then none else some (decimal digits), rest)

/-- A number: its value, if it is plain, and what follows it. -/
def readNumber : List Char → Option (Option Nat × List Char)
  | '-' :: rest => (readUnsigned rest).map fun (_, rest) => (none, rest)
  | cs => readUnsigned cs

/-! ## What is left is shorter -/

theorem readDigits_shorter {cs ds rest : List Char} (h : readDigits cs = some (ds, rest)) :
    rest.length < cs.length := by
  have split := congrArg List.length
    (List.takeWhile_append_dropWhile (p := Char.isDigit) (l := cs))
  rw [List.length_append] at split
  simp only [readDigits] at h
  split at h
  · contradiction
  · next hne =>
    obtain ⟨rfl, rfl⟩ := Prod.mk.inj (Option.some.inj h)
    have : (cs.takeWhile Char.isDigit).length ≠ 0 := by simpa [List.isEmpty_iff] using hne
    omega

theorem readWhole_shorter {cs ds rest : List Char} (h : readWhole cs = some (ds, rest)) :
    rest.length < cs.length := by
  unfold readWhole at h
  split at h
  · simp_all
  · exact readDigits_shorter h

theorem readFraction_le {cs rest : List Char} {b : Bool} (h : readFraction cs = some (b, rest)) :
    rest.length ≤ cs.length := by
  unfold readFraction at h
  split at h
  · obtain ⟨⟨ds, r⟩, hr, he⟩ := Option.map_eq_some_iff.mp h
    obtain ⟨-, rfl⟩ := Prod.mk.inj he
    have := readDigits_shorter hr
    simp only [List.length_cons]
    omega
  · simp_all

theorem skipSign_le (cs : List Char) : (skipSign cs).length ≤ cs.length := by
  unfold skipSign
  split <;> simp

theorem readExponent_le {cs rest : List Char} {b : Bool} (h : readExponent cs = some (b, rest)) :
    rest.length ≤ cs.length := by
  have body {cs : List Char}
      (h : (readDigits (skipSign cs)).map (fun (_, rest) => (true, rest)) = some (b, rest)) :
      rest.length ≤ cs.length := by
    obtain ⟨⟨ds, r⟩, hr, he⟩ := Option.map_eq_some_iff.mp h
    obtain ⟨-, rfl⟩ := Prod.mk.inj he
    have := readDigits_shorter hr
    have := skipSign_le cs
    omega
  unfold readExponent at h
  split at h
  · exact Nat.le_succ_of_le (body h)
  · exact Nat.le_succ_of_le (body h)
  · simp_all

theorem readUnsigned_shorter {cs rest : List Char} {v : Option Nat}
    (h : readUnsigned cs = some (v, rest)) : rest.length < cs.length := by
  simp only [readUnsigned, Option.bind_eq_bind, Option.bind_eq_some_iff, Option.pure_def,
    Option.some.injEq, Prod.mk.injEq, Prod.exists] at h
  obtain ⟨ds, r₁, h₁, f, r₂, h₂, e, r₃, h₃, -, rfl⟩ := h
  have := readWhole_shorter h₁
  have := readFraction_le h₂
  have := readExponent_le h₃
  omega

theorem readNumber_shorter {cs rest : List Char} {v : Option Nat}
    (h : readNumber cs = some (v, rest)) : rest.length < cs.length := by
  unfold readNumber at h
  split at h
  · obtain ⟨⟨w, r⟩, hr, he⟩ := Option.map_eq_some_iff.mp h
    obtain ⟨-, rfl⟩ := Prod.mk.inj he
    exact Nat.lt_succ_of_lt (readUnsigned_shorter hr)
  · exact readUnsigned_shorter h

end MemoryHierarchy.Json
