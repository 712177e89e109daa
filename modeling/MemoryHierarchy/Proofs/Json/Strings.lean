import MemoryHierarchy.Json.Text

/-!
Spellings of strings.

`Piece.Spelling` is the grammar of what may stand between the quotes, piece by piece, and `Meaning`
tells which characters pieces stand for: a unit stands for the character with its code, and two
surrogates for one beyond the 16-bit range. The readers agree with the grammar
(`readPieces_sound`, `readPieces_complete`) and with the meaning (`decodePieces_sound`,
`decodePieces_complete`), so `readText` takes exactly the spellings of a string from the front of a
text (`readText_eq_some_iff`).
-/

namespace MemoryHierarchy.Json

/-- The spellings of a piece. -/
inductive Piece.Spelling : Piece → List Char → Prop
  | plain {c : Char} : 32 ≤ c.toNat → c ≠ '"' → c ≠ '\\' → Spelling (.char c) [c]
  | escape {letter c : Char} : escaped? letter = some c → Spelling (.char c) ['\\', letter]
  | unit {a b c d : Char} {n : Nat} :
    hexUnit? a b c d = some n → Spelling (.unit n) ['\\', 'u', a, b, c, d]

/-- The spellings of pieces, one after the other. -/
inductive PiecesSpelling : List Piece → List Char → Prop
  | nil : PiecesSpelling [] []
  | cons {p : Piece} {ps : List Piece} {w cs : List Char} :
    p.Spelling w → PiecesSpelling ps cs → PiecesSpelling (p :: ps) (w ++ cs)

/-- The characters that pieces stand for. No character has the code of a surrogate, so one that
lacks its partner stands for none. -/
inductive Meaning : List Piece → List Char → Prop
  | nil : Meaning [] []
  | char {c : Char} {ps : List Piece} {cs : List Char} :
    Meaning ps cs → Meaning (.char c :: ps) (c :: cs)
  | unit {c : Char} {ps : List Piece} {cs : List Char} :
    Meaning ps cs → Meaning (.unit c.toNat :: ps) (c :: cs)
  | pair {high low : Nat} {c : Char} {ps : List Piece} {cs : List Char} :
    isHighSurrogate high = true → isLowSurrogate low = true →
    c.toNat = 0x10000 + (high - 0xd800) * 0x400 + (low - 0xdc00) →
    Meaning ps cs → Meaning (.unit high :: .unit low :: ps) (c :: cs)

/-- The spellings of a string behind its opening quote, and its text, if every piece of it stands
for a character. -/
inductive Quoted : Option String → List Char → Prop
  | text {ps : List Piece} {cs body : List Char} :
    PiecesSpelling ps body → Meaning ps cs → Quoted (some (String.ofList cs)) (body ++ ['"'])
  | unpaired {ps : List Piece} {body : List Char} :
    PiecesSpelling ps body → (∀ cs, ¬Meaning ps cs) → Quoted none (body ++ ['"'])

/-! ## Pieces -/

theorem readPieces_complete {ps : List Piece} {body : List Char} (rest : List Char)
    (h : PiecesSpelling ps body) : readPieces (body ++ '"' :: rest) = some (ps, rest) := by
  induction h with
  | nil => rfl
  | cons hpiece _ ih =>
    cases hpiece with
    | @plain c hprintable hquote hescape =>
      have hkept : ¬(c.toNat < 32 || c == '\\') = true := by
        simp only [Bool.or_eq_true, decide_eq_true_eq, beq_iff_eq, not_or]
        exact ⟨by omega, hescape⟩
      rw [List.singleton_append, List.cons_append, readPieces, if_neg hkept, ih]
      · rfl
      · exact hquote
      · rintro _ _ _ _ _ rfl
        contradiction
      · rintro _ _ rfl
        contradiction
    | @escape letter c hletter =>
      rw [List.cons_append, List.singleton_append, List.cons_append, List.cons_append, readPieces,
        hletter, ih]
      · rfl
      · rintro _ _ _ _ _ rfl
        cases hletter
    | unit hunit =>
      simp only [List.cons_append, List.nil_append, readPieces, hunit, ih]
      rfl

theorem readPieces_sound {cs rest : List Char} {ps : List Piece}
    (h : readPieces cs = some (ps, rest)) :
    ∃ body, cs = body ++ '"' :: rest ∧ PiecesSpelling ps body := by
  fun_induction readPieces cs generalizing ps with
  | case1 => contradiction
  | case2 r =>
    obtain ⟨rfl, rfl⟩ := Prod.mk.inj (Option.some.inj h)
    exact ⟨[], rfl, .nil⟩
  | case3 a b c d r ih =>
    simp only [Option.bind_eq_bind, Option.bind_eq_some_iff, Option.pure_def,
      Option.some.injEq, Prod.mk.injEq, Prod.exists] at h
    obtain ⟨n, hunit, qs, r', hr, rfl, rfl⟩ := h
    obtain ⟨body, rfl, hbody⟩ := ih hr
    exact ⟨_, rfl, .cons (.unit hunit) hbody⟩
  | case4 letter r _ ih =>
    simp only [Option.bind_eq_bind, Option.bind_eq_some_iff, Option.pure_def,
      Option.some.injEq, Prod.mk.injEq, Prod.exists] at h
    obtain ⟨c, hletter, qs, r', hr, rfl, rfl⟩ := h
    obtain ⟨body, rfl, hbody⟩ := ih hr
    exact ⟨_, rfl, .cons (.escape hletter) hbody⟩
  | case5 => contradiction
  | case6 c r hquote _ _ hplain ih =>
    simp only [Option.bind_eq_bind, Option.bind_eq_some_iff, Option.pure_def,
      Option.some.injEq, Prod.mk.injEq, Prod.exists] at h
    obtain ⟨qs, r', hr, rfl, rfl⟩ := h
    obtain ⟨body, rfl, hbody⟩ := ih hr
    simp only [Bool.or_eq_true, decide_eq_true_eq, beq_iff_eq, not_or] at hplain
    exact ⟨_, rfl, .cons (.plain (by omega) hquote hplain.2) hbody⟩

/-! ## Characters -/

theorem hexDigit?_lt {c : Char} {n : Nat} (h : hexDigit? c = some n) : n < 16 := by
  simp only [hexDigit?, Char.le_def, UInt32.le_iff_toNat_le] at h
  change (if 48 ≤ c.toNat ∧ c.toNat ≤ 57 then some (c.toNat - 48)
    else if 97 ≤ c.toNat ∧ c.toNat ≤ 102 then some (c.toNat - 97 + 10)
    else if 65 ≤ c.toNat ∧ c.toNat ≤ 70 then some (c.toNat - 65 + 10) else none) = some n at h
  grind

theorem hexUnit?_lt {a b c d : Char} {n : Nat} (h : hexUnit? a b c d = some n) : n < 0x10000 := by
  simp only [hexUnit?, Option.bind_eq_bind, Option.bind_eq_some_iff, Option.pure_def,
    Option.some.injEq] at h
  obtain ⟨w, hw, x, hx, y, hy, z, hz, rfl⟩ := h
  have := hexDigit?_lt hw
  have := hexDigit?_lt hx
  have := hexDigit?_lt hy
  have := hexDigit?_lt hz
  omega

theorem PiecesSpelling.unit_lt {ps : List Piece} {body : List Char} (h : PiecesSpelling ps body) :
    ∀ n, .unit n ∈ ps → n < 0x10000 := by
  induction h with
  | nil => exact fun n hn => nomatch hn
  | cons hpiece _ ih =>
    intro n hn
    rcases List.mem_cons.mp hn with rfl | hn
    · cases hpiece with
      | unit hunit => exact hexUnit?_lt hunit
    · exact ih n hn

/-- No character has the code of a surrogate. -/
theorem not_surrogate (c : Char) :
    (isHighSurrogate c.toNat || isLowSurrogate c.toNat) = false := by
  have hvalid : c.toNat < 0xd800 ∨ 0xdfff < c.toNat ∧ c.toNat < 0x110000 := c.valid
  simp only [isHighSurrogate, isLowSurrogate, Bool.or_eq_false_iff, Bool.and_eq_false_iff,
    decide_eq_false_iff_not]
  omega

theorem toNat_ofNat_of_valid {n : Nat} (h : n.isValidChar) : (Char.ofNat n).toNat = n := by
  rw [Char.ofNat, dif_pos h]
  rfl

theorem toNat_pairedChar {high low : Nat} (hhigh : isHighSurrogate high = true)
    (hlow : isLowSurrogate low = true) :
    (pairedChar high low).toNat = 0x10000 + (high - 0xd800) * 0x400 + (low - 0xdc00) := by
  simp only [isHighSurrogate, isLowSurrogate, Bool.and_eq_true, decide_eq_true_eq] at hhigh hlow
  exact toNat_ofNat_of_valid (.inr (by omega))

theorem toNat_unit {n : Nat} (hlt : n < 0x10000)
    (h : (isHighSurrogate n || isLowSurrogate n) = false) : (Char.ofNat n).toNat = n := by
  simp only [isHighSurrogate, isLowSurrogate, Bool.or_eq_false_iff, Bool.and_eq_false_iff,
    decide_eq_false_iff_not] at h
  rw [toNat_ofNat_of_valid]
  by_cases hbelow : n < 0xd800
  · exact .inl hbelow
  · exact .inr (by omega)

theorem decodePieces_unit (c : Char) (ps : List Piece) :
    decodePieces (.unit c.toNat :: ps) = (decodePieces ps).map (c :: ·) := by
  have hlone := not_surrogate c
  rw [decodePieces.eq_def]
  split
  · contradiction
  · next heq => cases heq
  · next high low rest heq =>
    obtain ⟨hc, rfl⟩ := List.cons.inj heq
    obtain rfl := Piece.unit.inj hc
    have hpair : ¬(isHighSurrogate c.toNat && isLowSurrogate low) = true := by
      rw [(Bool.or_eq_false_iff.mp hlone).1, Bool.false_and]
      exact Bool.false_ne_true
    rw [if_neg hpair, hlone, if_neg Bool.false_ne_true, Char.ofNat_toNat]
  · next n rest _ heq =>
    obtain ⟨hc, rfl⟩ := List.cons.inj heq
    obtain rfl := Piece.unit.inj hc
    rw [hlone, if_neg Bool.false_ne_true, Char.ofNat_toNat]

theorem decodePieces_complete {ps : List Piece} {cs : List Char} (h : Meaning ps cs) :
    decodePieces ps = some cs := by
  induction h with
  | nil => rfl
  | char _ ih => rw [decodePieces, ih, Option.map_some]
  | unit _ ih => rw [decodePieces_unit, ih, Option.map_some]
  | @pair high low c ps cs hhigh hlow hc _ ih =>
    have hpaired : pairedChar high low = c := by
      rw [pairedChar, ← hc, Char.ofNat_toNat]
    rw [decodePieces, if_pos (by rw [hhigh, hlow]; rfl), ih, hpaired, Option.map_some]

theorem decodePieces_sound {ps : List Piece} {cs : List Char}
    (hps : ∀ n, .unit n ∈ ps → n < 0x10000) (h : decodePieces ps = some cs) : Meaning ps cs := by
  have hunit {n : Nat} {ps : List Piece} {cs : List Char}
      (hlt : n < 0x10000) (hlone : ¬(isHighSurrogate n || isLowSurrogate n) = true)
      (h : Meaning ps cs) : Meaning (.unit n :: ps) (Char.ofNat n :: cs) := by
    have hmeaning := Meaning.unit (c := Char.ofNat n) h
    rwa [toNat_unit hlt (by simpa using hlone)] at hmeaning
  fun_induction decodePieces ps generalizing cs with
  | case1 =>
    obtain rfl := Option.some.inj h
    exact .nil
  | case2 c ps ih =>
    obtain ⟨cs, hcs, rfl⟩ := Option.map_eq_some_iff.mp h
    exact .char (ih (fun n hn => hps n (List.mem_cons_of_mem _ hn)) hcs)
  | case3 high low ps hpair ih =>
    obtain ⟨hhigh, hlow⟩ := Bool.and_eq_true_iff.mp hpair
    obtain ⟨cs, hcs, rfl⟩ := Option.map_eq_some_iff.mp h
    refine .pair hhigh hlow (toNat_pairedChar hhigh hlow) (ih (fun n hn => hps n ?_) hcs)
    exact List.mem_cons_of_mem _ (List.mem_cons_of_mem _ hn)
  | case4 => contradiction
  | case5 high low ps _ hlone ih =>
    obtain ⟨cs, hcs, rfl⟩ := Option.map_eq_some_iff.mp h
    exact hunit (hps high List.mem_cons_self) hlone
      (ih (fun n hn => hps n (List.mem_cons_of_mem _ hn)) hcs)
  | case6 => contradiction
  | case7 n ps _ hlone ih =>
    obtain ⟨cs, hcs, rfl⟩ := Option.map_eq_some_iff.mp h
    exact hunit (hps n List.mem_cons_self) hlone
      (ih (fun n hn => hps n (List.mem_cons_of_mem _ hn)) hcs)

/-! ## Reading a string -/

theorem readText_quoted {ps : List Piece} {body : List Char} (rest : List Char)
    (h : PiecesSpelling ps body) :
    readText (body ++ ['"'] ++ rest) = some ((decodePieces ps).map String.ofList, rest) := by
  rw [readText, List.append_assoc, List.singleton_append, readPieces_complete _ h]
  rfl

theorem readText_eq_some_iff {cs rest : List Char} {text? : Option String} :
    readText cs = some (text?, rest) ↔ ∃ body, cs = body ++ rest ∧ Quoted text? body := by
  constructor
  · intro h
    obtain ⟨⟨ps, rest⟩, hps, he⟩ := Option.map_eq_some_iff.mp h
    obtain ⟨rfl, rfl⟩ := Prod.mk.inj he
    obtain ⟨body, rfl, hbody⟩ := readPieces_sound hps
    refine ⟨body ++ ['"'], by rw [List.append_assoc, List.singleton_append], ?_⟩
    cases hdecoded : decodePieces ps with
    | none =>
      refine .unpaired hbody fun cs hcs => ?_
      cases hdecoded.symm.trans (decodePieces_complete hcs)
    | some cs => exact .text hbody (decodePieces_sound hbody.unit_lt hdecoded)
  · rintro ⟨_, rfl, hquoted⟩
    cases hquoted with
    | text hbody hmeaning =>
      rw [readText_quoted _ hbody, decodePieces_complete hmeaning, Option.map_some]
    | @unpaired ps body hbody hmeaning =>
      have hdecoded : decodePieces ps = none := by
        refine Option.eq_none_iff_forall_ne_some.mpr fun cs hcs => hmeaning cs ?_
        exact decodePieces_sound hbody.unit_lt hcs
      rw [readText_quoted _ hbody, hdecoded, Option.map_none]

end MemoryHierarchy.Json
