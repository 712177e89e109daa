import MemoryHierarchy.Proofs.Accepted
import MemoryHierarchy.Proofs.Geometry.Fields

/-!
Which sizes are those of a geometry.

`Geometry.checks` lists what is asked of four sizes, in order, each check with what is reported if
it fails. `Geometry.ofSizes?` makes these checks (`ofSizes?_makes`), so it goes through exactly if
all hold and reports the first that fails otherwise; all hold exactly if the sizes are powers of two
whose exponents fit together (`forall_checks_iff`). In 32-bit words the same comes out, and no step
on the way is without a result (`Fields.ofSizes?_eq`).
-/

namespace MemoryHierarchy

/-! ## Checks -/

/-- A check and what is reported if it fails. -/
structure Check where
  holds : Prop
  report : ConfigError

/-- `e` is what the first of these checks to fail reports. -/
def FirstFailing (checks : List Check) (e : ConfigError) : Prop :=
  ∃ before check after, checks = before ++ check :: after
    ∧ (∀ c ∈ before, c.holds) ∧ ¬check.holds ∧ e = check.report

/-- `x` makes these checks one after the other and goes through if all hold. -/
def Makes {α : Type} : List Check → Except ConfigError α → Prop
  | [], x => ∃ a, x = .ok a
  | check :: rest, x =>
    (check.holds → Makes rest x) ∧ (¬check.holds → x = .error check.report)

theorem firstFailing_cons {check : Check} {rest : List Check} {e : ConfigError} :
    FirstFailing (check :: rest) e
      ↔ (check.holds ∧ FirstFailing rest e) ∨ (¬check.holds ∧ e = check.report) := by
  constructor
  · rintro ⟨before, c, after, hchecks, hbefore, hc, he⟩
    cases before with
    | nil =>
      obtain ⟨rfl, -⟩ := List.cons.inj hchecks
      exact .inr ⟨hc, he⟩
    | cons first before =>
      obtain ⟨rfl, hrest⟩ := List.cons.inj hchecks
      obtain ⟨hfirst, hbefore⟩ := List.forall_mem_cons.mp hbefore
      exact .inl ⟨hfirst, before, c, after, hrest, hbefore, hc, he⟩
  · rintro (⟨hholds, before, c, after, rfl, hbefore, hc, he⟩ | ⟨hfails, he⟩)
    · exact ⟨check :: before, c, after, rfl, List.forall_mem_cons.mpr ⟨hholds, hbefore⟩, hc, he⟩
    · exact ⟨[], check, rest, rfl, List.forall_mem_nil _, hfails, he⟩

namespace Makes

variable {α : Type}

theorem ok_iff {x : Except ConfigError α} : ∀ {checks : List Check}, Makes checks x →
    ((∃ a, x = .ok a) ↔ ∀ c ∈ checks, c.holds)
  | [], h => ⟨fun _ => List.forall_mem_nil _, fun _ => h⟩
  | check :: rest, h => by
    rw [List.forall_mem_cons]
    by_cases hholds : check.holds
    · rw [ok_iff (h.1 hholds)]
      exact (and_iff_right hholds).symm
    · constructor
      · rintro ⟨a, ha⟩
        cases ha.symm.trans (h.2 hholds)
      · exact fun hall => absurd hall.1 hholds

theorem error_iff {x : Except ConfigError α} {e : ConfigError} : ∀ {checks : List Check},
    Makes checks x → (x = .error e ↔ FirstFailing checks e)
  | [], h => by
    constructor
    · rintro rfl
      obtain ⟨a, ha⟩ := h
      cases ha
    · rintro ⟨before, c, after, hchecks, -⟩
      cases before <;> cases hchecks
  | check :: rest, h => by
    rw [firstFailing_cons]
    by_cases hholds : check.holds
    · rw [error_iff (h.1 hholds)]
      simp [hholds]
    · rw [h.2 hholds]
      simp [hholds, eq_comm]

/-- A power of two is asked for. -/
theorem powerOfTwo {field : String} {n : Nat} {rest : List Check}
    {f : { k : Nat // n = twoPow k } → Except ConfigError α} (hf : ∀ k, Makes rest (f k)) :
    Makes (⟨∃ k, n = twoPow k, .notPowerOfTwo field n⟩ :: rest)
      (requirePowerOfTwo field n >>= f) := by
  rw [requirePowerOfTwo]
  split
  · next k hk =>
    have hn := exponent?_eq_some_iff.mp hk
    exact ⟨fun _ => hf ⟨k, hn⟩, fun h => absurd ⟨k, hn⟩ h⟩
  · next hnone =>
    refine ⟨?_, fun _ => rfl⟩
    rintro ⟨k, hk⟩
    exact absurd hk (exponent?_eq_none_iff.mp hnone k)

/-- A check that is decided. -/
theorem guarded {c check : Prop} [Decidable c] {report : ConfigError} {rest : List Check}
    {f : ¬c → Except ConfigError α} (hcheck : check ↔ ¬c) (hf : ∀ h, Makes rest (f h)) :
    Makes (⟨check, report⟩ :: rest) (if h : c then .error report else f h) := by
  constructor
  · intro h
    rw [dif_neg (hcheck.mp h)]
    exact hf _
  · intro h
    rw [dif_pos (Decidable.not_not.mp fun hc => h (hcheck.mpr hc))]

end Makes

namespace Geometry

/-- What is asked of the sizes of a cache. -/
def checks (wordBits sizeBytes ways lineBytes : Nat) : List Check :=
  [⟨wordBits = 8 ∨ wordBits = 16 ∨ wordBits = 32, .outOfRange "word_bits" wordBits 8 32⟩,
    ⟨∃ k, sizeBytes = twoPow k, .notPowerOfTwo "size_bytes" sizeBytes⟩,
    ⟨∃ k, ways = twoPow k, .notPowerOfTwo "ways" ways⟩,
    ⟨∃ k, lineBytes = twoPow k, .notPowerOfTwo "line_bytes" lineBytes⟩,
    ⟨wordBits ≤ 8 * lineBytes, .lineSmallerThanWord lineBytes (wordBits / 8)⟩,
    ⟨ways * lineBytes ≤ sizeBytes, .geometryTooSmall sizeBytes ways lineBytes⟩,
    ⟨sizeBytes / ways ≤ twoPow wordBits, .wayExceedsAddressSpace (sizeBytes / ways) wordBits⟩]

/-- Sizes that are powers of two with exponents that fit together: a line of `twoPow o` bytes,
`twoPow i` sets and `twoPow w` ways. -/
structure Consistent (wordBits sizeBytes ways lineBytes o i w : Nat) : Prop where
  supported : wordBits = 8 ∨ wordBits = 16 ∨ wordBits = 32
  line_eq : lineBytes = twoPow o
  ways_eq : ways = twoPow w
  size_eq : sizeBytes = twoPow (o + i + w)
  word_le : wordBits ≤ 8 * twoPow o
  way_le : o + i ≤ wordBits

theorem forall_checks_iff {wordBits sizeBytes ways lineBytes : Nat} :
    (∀ c ∈ checks wordBits sizeBytes ways lineBytes, c.holds)
      ↔ ∃ o i w, Consistent wordBits sizeBytes ways lineBytes o i w := by
  simp only [checks, List.forall_mem_cons]
  constructor
  · rintro ⟨hbits, ⟨s, rfl⟩, ⟨w, rfl⟩, ⟨o, rfl⟩, hword, hset, hway, -⟩
    rw [← twoPow_add, twoPow_le_iff] at hset
    rw [twoPow_div (by omega), twoPow_le_iff] at hway
    refine ⟨o, s - w - o, w, hbits, rfl, rfl, ?_, hword, by omega⟩
    rw [show o + (s - w - o) + w = s by omega]
  · rintro ⟨o, i, w, hbits, rfl, rfl, rfl, hword, hway⟩
    refine ⟨hbits, ⟨_, rfl⟩, ⟨_, rfl⟩, ⟨_, rfl⟩, hword, ?_, ?_, List.forall_mem_nil _⟩
    · rw [← twoPow_add, twoPow_le_iff]
      omega
    · rw [twoPow_div (by omega), twoPow_le_iff]
      omega

theorem ofSizes?_makes (wordBits sizeBytes ways lineBytes : UInt32) :
    Makes (checks wordBits.toNat sizeBytes.toNat ways.toNat lineBytes.toNat)
      (ofSizes? wordBits sizeBytes ways lineBytes) := by
  rw [ofSizes?]
  split
  · next hnone =>
    refine ⟨?_, fun _ => rfl⟩
    rintro (h | h | h)
    all_goals
      rw [h] at hnone
      cases hnone
  · next word hword =>
    have hbits := WordWidth.bits_of_ofBits? hword
    have hbytes : wordBits.toNat / 8 = word.bytes := by
      rw [← hbits, word.bits_eq, Nat.mul_div_cancel_left _ (by decide)]
    have hsupported : word.bits = 8 ∨ word.bits = 16 ∨ word.bits = 32 := by
      cases word
      · exact .inl rfl
      · exact .inr (.inl rfl)
      · exact .inr (.inr rfl)
    rw [checks, hbytes, ← hbits]
    refine ⟨fun _ => ?_, fun h => absurd hsupported h⟩
    apply Makes.powerOfTwo
    rintro ⟨s, hs⟩
    apply Makes.powerOfTwo
    rintro ⟨w, hw⟩
    apply Makes.powerOfTwo
    rintro ⟨o, ho⟩
    apply Makes.guarded
    · rw [word.bits_eq]
      omega
    intro hnarrow
    apply Makes.guarded
    · omega
    intro hsmall
    apply Makes.guarded
    · rw [hs, hw, ho, ← twoPow_add, Nat.not_lt, twoPow_le_iff] at hsmall
      rw [hs, hw, twoPow_div (by omega), twoPow_le_iff]
      omega
    intro hwide
    exact ⟨_, rfl⟩

/-! ## In 32-bit words -/

namespace Fields

/-- The fields of the geometry with these sizes, each a power of two already, if they fit
together. -/
def ofPowers? (wordBits sizeBytes ways lineBytes : UInt32) :
    ExceptT ConfigError Option Fields :=
  let wordBytes := wordBits / 8
  if lineBytes < wordBytes then
    throw (.lineSmallerThanWord lineBytes.toNat wordBytes.toNat)
  else do
    let setBytes ← Checked.mul64 ways.toUInt64 lineBytes.toUInt64
    if sizeBytes.toUInt64 < setBytes then
      throw (.geometryTooSmall sizeBytes.toNat ways.toNat lineBytes.toNat)
    else
      let wayBytes ← Checked.div sizeBytes ways
      let tagShift := UInt32.ofNat (trailingZeros wayBytes.toNat)
      if wordBits < tagShift then
        throw (.wayExceedsAddressSpace wayBytes.toNat wordBits.toNat)
      else
        let sets ← Checked.div wayBytes lineBytes
        let tagBits ← Checked.sub wordBits tagShift
        return {
          wordBits, sizeBytes, ways, lineBytes, sets
          offsetBits := .ofNat (trailingZeros lineBytes.toNat)
          indexBits := .ofNat (trailingZeros sets.toNat)
          tagShift, tagBits }

/-- The fields of the geometry with these sizes. -/
def ofSizes? (wordBits sizeBytes ways lineBytes : UInt32) :
    ExceptT ConfigError Option Fields :=
  if wordBits ∉ [8, 16, 32] then throw (.outOfRange "word_bits" wordBits.toNat 8 32)
  else do
    let _ ← requirePowerOfTwo "size_bytes" sizeBytes.toNat
    let _ ← requirePowerOfTwo "ways" ways.toNat
    let _ ← requirePowerOfTwo "line_bytes" lineBytes.toNat
    ofPowers? wordBits sizeBytes ways lineBytes

/-- Fields are told by their numbers. -/
theorem Match.eq_fields {f : Fields} {g : Geometry} (h : f.Match g) : f = g.fields := by
  have hword : ∀ {a : UInt32} {n : Nat}, a.toNat = n → a = .ofNat n := by
    rintro a _ rfl
    exact UInt32.ofNat_toNat.symm
  cases f
  rw [fields, mk.injEq]
  exact ⟨hword h.wordBits, hword h.sizeBytes, hword h.ways, hword h.lineBytes, hword h.sets,
    hword h.offsetBits, hword h.indexBits, hword h.tagShift, hword h.tagBits⟩

end Fields

section Powers

variable {a b : UInt32} {j k : Nat}

theorem exponent_lt (ha : a.toNat = twoPow k) : k < 32 := by
  have hlt := a.toNat_lt
  rw [ha] at hlt
  exact twoPow_lt_iff.mp hlt

theorem toNat_trailingZeros (ha : a.toNat = twoPow k) :
    (UInt32.ofNat (trailingZeros a.toNat)).toNat = k := by
  have hk : k < 32 := exponent_lt ha
  rw [ha, trailingZeros_twoPow k hk]
  exact UInt32.toNat_ofNat_of_lt' (Nat.lt_trans hk (by decide))

theorem div_twoPow (ha : a.toNat = twoPow j) (hb : b.toNat = twoPow k) (h : k ≤ j) :
    ∃ c, Checked.div a b = some c ∧ c.toNat = twoPow (j - k) := by
  refine ⟨_, Checked.div_eq (by rw [hb]; exact twoPow_pos k), ?_⟩
  rw [← UInt32.toNat_div, UInt32.ofNat_toNat, UInt32.toNat_div, ha, hb, twoPow_div h]

end Powers

/-- A first part that may refuse, in a chain that may also have no result. -/
theorem lift_bind_eq_some {α β γ : Type} {view : γ → β} {x : Except ConfigError α}
    {f : α → ExceptT ConfigError Option β} {f' : α → Except ConfigError γ}
    (hf : ∀ a, f a = some ((f' a).map view)) :
    (liftM x >>= f : ExceptT ConfigError Option β) = some ((x >>= f').map view) := by
  cases x with
  | ok a => exact hf a
  | error e => rfl

/-- A first part that has a result, in a chain that may also refuse. -/
theorem lift_some_bind {α β : Type} {x : Option α} {a : α} (hx : x = some a)
    (f : α → ExceptT ConfigError Option β) :
    (liftM x >>= f : ExceptT ConfigError Option β) = f a := by
  rw [hx]
  rfl

/-- A refusal under a condition. -/
theorem ite_throw_eq_some {β γ : Type} {view : γ → β} {c d : Prop} [Decidable c] [Decidable d]
    {e e' : ConfigError} {x : ExceptT ConfigError Option β} {x' : ¬d → Except ConfigError γ}
    (hcond : c ↔ d) (he : e = e') (hx : ∀ h, x = some ((x' h).map view)) :
    (if c then throw e else x) = some ((if h : d then .error e' else x' h).map view) := by
  by_cases h : d
  · rw [if_pos (hcond.mpr h), dif_pos h, he]
    rfl
  · rw [if_neg (mt hcond.mp h), dif_neg h]
    exact hx h

theorem mem_supported_iff {wordBits : UInt32} :
    wordBits ∈ [8, 16, 32] ↔ ∃ word, WordWidth.ofBits? wordBits.toNat = some word := by
  constructor
  · intro h
    obtain rfl | rfl | rfl : wordBits = 8 ∨ wordBits = 16 ∨ wordBits = 32 := by simpa using h
    · exact ⟨.w8, rfl⟩
    · exact ⟨.w16, rfl⟩
    · exact ⟨.w32, rfl⟩
  · rintro ⟨word, hword⟩
    have hbits : wordBits = .ofNat word.bits := by
      rw [WordWidth.bits_of_ofBits? hword, UInt32.ofNat_toNat]
    rw [hbits]
    cases word <;> decide

/-- Both go through the same steps, and each step refuses when its counterpart does. -/
theorem Fields.ofSizes?_eq (wordBits sizeBytes ways lineBytes : UInt32) :
    Fields.ofSizes? wordBits sizeBytes ways lineBytes
      = some ((Geometry.ofSizes? wordBits sizeBytes ways lineBytes).map fields) := by
  rw [Fields.ofSizes?, Geometry.ofSizes?]
  split
  · next hnone =>
    split
    · rfl
    · next word hword => exact absurd (mem_supported_iff.mpr ⟨word, hword⟩) hnone
  · next hsome =>
    split
    · next hnone =>
      obtain ⟨word, hword⟩ := mem_supported_iff.mp (Decidable.not_not.mp hsome)
      cases hnone.symm.trans hword
    · next word hword =>
      have hbits := WordWidth.bits_of_ofBits? hword
      have hbytes : (wordBits / 8).toNat = word.bytes := by
        rw [UInt32.toNat_div, ← hbits, word.bits_eq]
        exact Nat.mul_div_cancel_left _ (by decide)
      apply lift_bind_eq_some
      rintro ⟨s, hs⟩
      apply lift_bind_eq_some
      rintro ⟨w, hw⟩
      apply lift_bind_eq_some
      rintro ⟨o, ho⟩
      obtain ⟨setBytes, hmul, hset⟩ := Checked.mul64_eq ways lineBytes
      apply ite_throw_eq_some
      · rw [UInt32.lt_iff_toNat_lt, hbytes]
      · rw [hbytes]
      intro _
      rw [lift_some_bind hmul]
      apply ite_throw_eq_some
      · rw [UInt64.lt_iff_toNat_lt, UInt32.toNat_toUInt64, hset]
      · rfl
      intro small
      rw [hs, hw, ho, ← twoPow_add, Nat.not_lt, twoPow_le_iff] at small
      -- A set fits the cache, so no exponent is cut off at zero in the quotients.
      obtain ⟨wayBytes, hdiv, hway⟩ := div_twoPow hs hw (by omega)
      obtain ⟨sets, hdiv', hsets⟩ := div_twoPow hway ho (by omega)
      have hshift := toNat_trailingZeros hway
      have hsize : s = o + (s - w - o) + w := by omega
      have htop : s - w = o + (s - w - o) := by omega
      rw [lift_some_bind hdiv]
      apply ite_throw_eq_some
      · rw [UInt32.lt_iff_toNat_lt, hbits, hshift]
      · rw [hway, hbits, hs, hw, twoPow_div (by omega)]
      intro wide
      have htag : Checked.sub wordBits (.ofNat (trailingZeros wayBytes.toNat)) = _ :=
        Checked.sub_eq (by omega)
      rw [lift_some_bind hdiv', lift_some_bind htag]
      apply congrArg fun f => some (Except.ok f)
      apply Fields.Match.eq_fields
      exact {
        wordBits := hbits.symm
        sizeBytes := hs.trans (congrArg twoPow hsize)
        ways := hw
        lineBytes := ho
        sets := hsets
        offsetBits := toNat_trailingZeros ho
        indexBits := toNat_trailingZeros hsets
        tagShift := hshift.trans htop
        tagBits := by
          rw [UInt32.toNat_ofNat_of_lt' (Nat.lt_of_le_of_lt (Nat.sub_le _ _) wordBits.toNat_lt),
            hshift, ← hbits]
          exact congrArg (word.bits - ·) htop }

/-! ## Sizes -/

/-- The parts of a geometry with words of `wordBits` bits, lines of `twoPow o` bytes and `twoPow i`
sets, `sizeBytes` bytes in all. -/
structure HasParts (g : Geometry) (wordBits sizeBytes o i : Nat) : Prop where
  word_eq : g.word.bits = wordBits
  offsetBits_eq : g.offsetBits = o
  indexBits_eq : g.indexBits = i
  sets_eq : g.sets = twoPow i
  tagShift_eq : g.tagShift = o + i
  tagBits_eq : g.tagBits = wordBits - o - i
  size_eq : g.sets * g.ways * g.lineBytes = sizeBytes

theorem sets_mul_ways_mul_lineBytes (g : Geometry) :
    g.sets * g.ways * g.lineBytes = g.sizeBytes := by
  rw [sets, ways, lineBytes, sizeBytes, ← twoPow_add, ← twoPow_add]
  congr 1
  omega

/-- Sizes have one set of exponents. -/
theorem hasParts {g : Geometry} {wordBits sizeBytes ways lineBytes : UInt32} {o i w : Nat}
    (hg : g.HasSizes wordBits sizeBytes ways lineBytes)
    (h : Consistent wordBits.toNat sizeBytes.toNat ways.toNat lineBytes.toNat o i w) :
    g.HasParts wordBits.toNat sizeBytes.toNat o i := by
  have hline : g.offsetBits = o := twoPow_inj (hg.lineBytes.trans h.line_eq)
  have hways : g.wayBits = w := twoPow_inj (hg.ways.trans h.ways_eq)
  have hsize : g.offsetBits + g.indexBits + g.wayBits = o + i + w :=
    twoPow_inj (hg.sizeBytes.trans h.size_eq)
  have hindex : g.indexBits = i := by omega
  exact {
    word_eq := hg.wordBits
    offsetBits_eq := hline
    indexBits_eq := hindex
    sets_eq := congrArg twoPow hindex
    tagShift_eq := congrArg₂ (· + ·) hline hindex
    tagBits_eq := by rw [tagBits, tagShift, hg.wordBits, hline, hindex, Nat.sub_add_eq]
    size_eq := g.sets_mul_ways_mul_lineBytes.trans hg.sizeBytes }

/-- **Acceptance.** Four sizes are those of a geometry exactly if they are powers of two whose
exponents fit together, and these are then the parts of the geometry; otherwise the first check
that fails is reported. In 32-bit words the same comes out, and every step has a result. -/
theorem sizes_decided (wordBits sizeBytes ways lineBytes : UInt32) :
    Fields.ofSizes? wordBits sizeBytes ways lineBytes
        = some ((ofSizes? wordBits sizeBytes ways lineBytes).map fields)
      ∧ ((∃ g, ofSizes? wordBits sizeBytes ways lineBytes = .ok g)
        ↔ ∃ o i w, Consistent wordBits.toNat sizeBytes.toNat ways.toNat lineBytes.toNat o i w)
      ∧ (∀ g o i w, ofSizes? wordBits sizeBytes ways lineBytes = .ok g →
        Consistent wordBits.toNat sizeBytes.toNat ways.toNat lineBytes.toNat o i w →
        g.HasParts wordBits.toNat sizeBytes.toNat o i ∧ g.fields.Match g)
      ∧ ∀ e, ofSizes? wordBits sizeBytes ways lineBytes = .error e
        ↔ FirstFailing (checks wordBits.toNat sizeBytes.toNat ways.toNat lineBytes.toNat) e := by
  have hmakes := ofSizes?_makes wordBits sizeBytes ways lineBytes
  refine ⟨Fields.ofSizes?_eq wordBits sizeBytes ways lineBytes, ?_, ?_, fun e => hmakes.error_iff⟩
  · rw [hmakes.ok_iff, forall_checks_iff]
  · intro g o i w hg h
    exact ⟨hasParts (ofSizes?_ok hg) h, g.fields_match⟩

end Geometry

end MemoryHierarchy
