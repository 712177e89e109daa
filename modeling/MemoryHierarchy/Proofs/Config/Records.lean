import MemoryHierarchy.Config.Reader

/-!
Records in JSON.

A `Form` says how the values of a type stand in JSON: which JSON values give them, and which have a
fault. The form of a record is put together from its fields (`Form.record`): an object gives every
field at most once, in any order, an array gives them in their order, and what is left out has its
default. A reader that takes a record apart and reads one field after the other reads this form
(`ReadBy.record`), each field of it by its own reader (`Fills.field`).
-/

namespace MemoryHierarchy.Json

/-- How the values of a type stand in JSON. -/
structure Form (α : Type) where
  /-- This JSON value gives this value. -/
  Gives : Json → α → Prop
  /-- This JSON value has a fault and gives none. -/
  Faulty : Json → Prop

/-- A word is a plain number below this bound. -/
def Form.word {α : Type} (bound : Nat) (toNat : α → Nat) : Form α where
  Gives j w := j = .number (some (toNat w))
  Faulty j := ∀ n < bound, j ≠ .number (some n)

def Form.word32 : Form UInt32 := .word UInt32.size UInt32.toNat

def Form.word64 : Form UInt64 := .word UInt64.size UInt64.toNat

/-- A field of the records of a type. -/
structure Field (α : Type) where
  name : String
  /-- This JSON value gives the field of this record. -/
  Gives : Json → α → Prop
  /-- This JSON value has a fault and gives the field of no record. -/
  Faulty : Json → Prop
  /-- The field of this record may be left out. -/
  Omissible : α → Prop
  /-- The field may never be left out. -/
  Required : Prop

namespace Field

variable {α β : Type}

/-- The field that `get` takes from a record; its default is the value that may be left out. -/
def of (name : String) (get : α → β) (form : Form β) (default? : Option β) : Field α where
  name
  Gives j a := form.Gives j (get a)
  Faulty := form.Faulty
  Omissible a := default? = some (get a)
  Required := default? = none

/-- What is given for the field, if anything, makes it the field of this record. -/
def Takes (f : Field α) : Option Json → α → Prop
  | some v, a => f.Gives v a
  | none, a => f.Omissible a

/-- What is given for the field, if anything, makes it the field of no record. -/
def Spoilt (f : Field α) : Option Json → Prop
  | some v => f.Faulty v
  | none => f.Required

end Field

/-- The values with this key. -/
def valuesAt {κ : Type} [DecidableEq κ] (key : κ) (entries : List (κ × Json)) : List Json :=
  (entries.filter (·.1 = key)).map (·.2)

/-- A JSON value gives a record with these fields. -/
inductive Record.Gives {α : Type} (fields : List (Field α)) : Json → α → Prop
  /-- An object gives each field at most once; other names are passed over. -/
  | object {members : List (Option String × Json)} {a : α} : (∀ m ∈ members, m.1 ≠ none) →
    (∀ f ∈ fields, ∃ v?, valuesAt (some f.name) members = v?.toList ∧ f.Takes v? a) →
    Gives fields (.object members) a
  /-- An array gives the fields in their order, and may end early. -/
  | array {items : List Json} {a : α} : items.length ≤ fields.length →
    (∀ (i : Nat) (f : Field α), fields[i]? = some f → f.Takes items[i]? a) →
    Gives fields (.array items) a

/-- A JSON value has a fault as a record with these fields, whatever else it holds. -/
inductive Record.Faulty {α : Type} (fields : List (Field α)) : Json → Prop
  /-- It is no object and no array. -/
  | noRecord {j : Json} : (∀ members, j ≠ .object members) → (∀ items, j ≠ .array items) →
    Faulty fields j
  /-- A name has no text. -/
  | unnamed {members : List (Option String × Json)} {v : Json} : (none, v) ∈ members →
    Faulty fields (.object members)
  /-- A field is given twice. -/
  | twice {members : List (Option String × Json)} {f : Field α} : f ∈ fields →
    1 < (valuesAt (some f.name) members).length → Faulty fields (.object members)
  /-- What is given for a field has a fault. -/
  | value {members : List (Option String × Json)} {f : Field α} {v : Json} : f ∈ fields →
    v ∈ valuesAt (some f.name) members → f.Faulty v → Faulty fields (.object members)
  /-- A field without default is not given. -/
  | missing {members : List (Option String × Json)} {f : Field α} : f ∈ fields →
    valuesAt (some f.name) members = [] → f.Required → Faulty fields (.object members)
  /-- There are more items than fields. -/
  | long {items : List Json} : fields.length < items.length → Faulty fields (.array items)
  /-- The item in the place of a field has a fault. -/
  | item {items : List Json} {i : Nat} {f : Field α} {v : Json} : fields[i]? = some f →
    items[i]? = some v → f.Faulty v → Faulty fields (.array items)
  /-- The items end before a field without default. -/
  | short {items : List Json} {i : Nat} {f : Field α} : fields[i]? = some f →
    items.length ≤ i → f.Required → Faulty fields (.array items)

/-- The form of a record with these fields. -/
def Form.record {α : Type} (fields : List (Field α)) : Form α where
  Gives := Record.Gives fields
  Faulty := Record.Faulty fields

/-! ## Values by key -/

section

variable {κ : Type} [DecidableEq κ]

theorem valuesAt_cons (key : κ) (entry : κ × Json) (entries : List (κ × Json)) :
    valuesAt key (entry :: entries)
      = if entry.1 = key then entry.2 :: valuesAt key entries else valuesAt key entries := by
  rw [valuesAt, List.filter_cons]
  by_cases h : entry.1 = key <;> simp [h, valuesAt]

theorem lookup_eq_head? (key : κ) (entries : List (κ × Json)) :
    entries.lookup key = (valuesAt key entries).head? := by
  induction entries with
  | nil => rfl
  | cons entry entries ih =>
    rw [List.lookup_cons, valuesAt_cons]
    by_cases h : entry.1 = key
    · rw [if_pos h, beq_iff_eq.mpr h.symm, List.head?_cons]
    · rw [if_neg h, beq_eq_false_iff_ne.mpr (Ne.symm h), ih]

theorem length_valuesAt (key : κ) (entries : List (κ × Json)) :
    (valuesAt key entries).length = (entries.map (·.1)).count key := by
  rw [valuesAt, List.length_map, List.count, List.countP_map, List.countP_eq_length_filter]
  rfl

theorem valuesAt_filter {p : κ → Bool} {key : κ} (h : p key = true) (entries : List (κ × Json)) :
    valuesAt key (entries.filter (p ·.1)) = valuesAt key entries := by
  rw [valuesAt, valuesAt, List.filter_filter]
  congr 2
  funext entry
  by_cases hkey : entry.1 = key <;> simp [hkey, h]

theorem valuesAt_eq_nil {key : κ} {entries : List (κ × Json)} (h : ∀ e ∈ entries, e.1 ≠ key) :
    valuesAt key entries = [] := by
  rw [valuesAt, List.map_eq_nil_iff, List.filter_eq_nil_iff]
  exact fun e he => by simpa using h e he

end

/-- Every key is there at most once exactly if no key has two values. -/
theorem nodup_keys_iff {κ : Type} [DecidableEq κ] {entries : List (κ × Json)} :
    (entries.map (·.1)).Nodup ↔ ∀ key, (valuesAt key entries).length ≤ 1 := by
  rw [List.nodup_iff_count]
  exact forall_congr' fun key => by rw [length_valuesAt]

theorem eq_toList_head? {vs : List Json} (h : vs.length ≤ 1) : vs = vs.head?.toList := by
  match vs with
  | [] | [_] => rfl
  | _ :: _ :: _ => simp at h

/-! ## Taking a record apart -/

/-- The fields of an object, if all names have a text. -/
def named? (members : List (Option String × Json)) : Option Record :=
  members.mapM fun (name?, value) => name?.map (·, value)

theorem named?_cons (name? : Option String) (value : Json) (members : List (Option String × Json)) :
    named? ((name?, value) :: members)
      = name?.bind fun name => (named? members).map ((name, value) :: ·) := by
  rw [named?, List.mapM_cons]
  cases name? with
  | none => rfl
  | some name =>
    rw [Option.bind_some, Option.map_eq_bind]
    rfl

theorem valuesAt_named? {members : List (Option String × Json)} {named : Record}
    (h : named? members = some named) (name : String) :
    valuesAt (some name) members = valuesAt name named := by
  induction members generalizing named with
  | nil =>
    obtain rfl := Option.some.inj h
    rfl
  | cons m members ih =>
    obtain ⟨name?, value⟩ := m
    rw [named?_cons] at h
    obtain ⟨first, rfl, h⟩ := Option.bind_eq_some_iff.mp h
    obtain ⟨rest, hrest, rfl⟩ := Option.map_eq_some_iff.mp h
    rw [valuesAt_cons, valuesAt_cons, ih hrest]
    simp

theorem named?_eq_none_iff {members : List (Option String × Json)} :
    named? members = none ↔ ∃ v, (none, v) ∈ members := by
  induction members with
  | nil => simp [named?]
  | cons m members ih =>
    obtain ⟨name?, value⟩ := m
    rw [named?_cons]
    cases name? with
    | none => simp
    | some name => simp [ih]

theorem record?_object {names : List String} {members : List (Option String × Json)} :
    record? names (.object members)
      = (named? members).bind fun named =>
        if ((named.filter (names.contains ·.1)).map (·.1)).Nodup
        then some (named.filter (names.contains ·.1)) else none := rfl

theorem record?_object_some {names : List String} {members : List (Option String × Json)}
    {r : Record} (h : record? names (.object members) = some r) :
    (∀ m ∈ members, m.1 ≠ none) ∧
      ∀ name ∈ names, valuesAt (some name) members = (r.lookup name).toList := by
  rw [record?_object] at h
  obtain ⟨named, hnamed, h⟩ := Option.bind_eq_some_iff.mp h
  split at h
  · next hnodup =>
    obtain rfl := Option.some.inj h
    refine ⟨?_, fun name hname => ?_⟩
    · rintro ⟨_, v⟩ hv rfl
      cases hnamed.symm.trans (named?_eq_none_iff.mpr ⟨v, hv⟩)
    · rw [lookup_eq_head?, ← eq_toList_head? (nodup_keys_iff.mp hnodup name),
        valuesAt_filter (by simpa using hname), valuesAt_named? hnamed]
  · contradiction

theorem record?_object_none {names : List String} {members : List (Option String × Json)}
    (h : record? names (.object members) = none) :
    (∃ v, (none, v) ∈ members) ∨ ∃ name ∈ names, 1 < (valuesAt (some name) members).length := by
  rw [record?_object] at h
  cases hnamed : named? members with
  | none => exact .inl (named?_eq_none_iff.mp hnamed)
  | some named =>
    rw [hnamed, Option.bind_some] at h
    split at h
    · contradiction
    · next hnodup =>
      rw [nodup_keys_iff, Classical.not_forall] at hnodup
      obtain ⟨name, htwice⟩ := hnodup
      by_cases hname : name ∈ names
      · rw [valuesAt_filter (by simpa using hname), ← valuesAt_named? hnamed] at htwice
        exact .inr ⟨name, hname, by omega⟩
      · refine absurd (Nat.zero_le 1) ?_
        rwa [valuesAt_eq_nil] at htwice
        intro entry hentry heq
        have hknown := (List.mem_filter.mp hentry).2
        rw [heq] at hknown
        exact hname (by simpa using hknown)

theorem record?_array (names : List String) (items : List Json) :
    record? names (.array items)
      = if items.length ≤ names.length then some (names.zip items) else none := rfl

theorem lookup_zip {names : List String} (hnames : names.Nodup) {i : Nat} {name : String}
    (h : names[i]? = some name) (items : List Json) :
    (names.zip items).lookup name = items[i]? := by
  induction names generalizing i items with
  | nil => cases h
  | cons first names ih =>
    obtain ⟨hfirst, hnames⟩ := List.nodup_cons.mp hnames
    cases items with
    | nil => rw [List.zip_nil_right, List.lookup_nil, List.getElem?_nil]
    | cons item items =>
      rw [List.zip_cons_cons, List.lookup_cons]
      cases i with
      | zero =>
        obtain rfl := Option.some.inj h
        rw [beq_self_eq_true, List.getElem?_cons_zero]
      | succ i =>
        rw [List.getElem?_cons_succ] at h
        have hne : name ≠ first := fun heq => hfirst (heq ▸ List.mem_of_getElem? h)
        rw [beq_eq_false_iff_ne.mpr hne, ih hnames h, List.getElem?_cons_succ]

/-! ## Reading a record -/

section

variable {α β : Type} {fields : List (Field α)} {j : Json} {a : α}

theorem getElem?_names {i : Nat} {f : Field α} (h : fields[i]? = some f) :
    (fields.map Field.name)[i]? = some f.name := by
  rw [List.getElem?_map, h, Option.map_some]

theorem record?_array_some (hnames : (fields.map Field.name).Nodup) {items : List Json}
    {r : Record} (h : record? (fields.map Field.name) (.array items) = some r) :
    items.length ≤ fields.length
      ∧ ∀ {i : Nat} {f : Field α}, fields[i]? = some f → r.lookup f.name = items[i]? := by
  rw [record?_array, List.length_map] at h
  split at h
  · next hlength =>
    obtain rfl := Option.some.inj h
    exact ⟨hlength, fun hi => lookup_zip hnames (getElem?_names hi) items⟩
  · contradiction

theorem record_gives_iff (hnames : (fields.map Field.name).Nodup) :
    Record.Gives fields j a ↔ ∃ r, j.record? (fields.map Field.name) = some r
      ∧ ∀ f ∈ fields, f.Takes (r.lookup f.name) a := by
  constructor
  · intro h
    cases h with
    | @object members _ hnamed hfields =>
      cases hr : record? (fields.map Field.name) (.object members) with
      | none =>
        rcases record?_object_none hr with ⟨v, hv⟩ | ⟨name, hname, htwice⟩
        · exact absurd rfl (hnamed _ hv)
        · obtain ⟨f, hf, rfl⟩ := List.mem_map.mp hname
          obtain ⟨v?, hv, -⟩ := hfields f hf
          rw [hv] at htwice
          exact absurd htwice (Nat.not_lt.mpr Option.length_toList_le)
      | some r =>
        refine ⟨r, rfl, fun f hf => ?_⟩
        obtain ⟨v?, hv, htakes⟩ := hfields f hf
        have hsame := congrArg List.head? hv
        rw [(record?_object_some hr).2 f.name (List.mem_map_of_mem hf), Option.head?_toList,
          Option.head?_toList] at hsame
        rwa [hsame]
    | array hlength hfields =>
      refine ⟨_, if_pos (by rwa [List.length_map]), fun f hf => ?_⟩
      obtain ⟨i, hi⟩ := List.getElem?_of_mem hf
      rw [lookup_zip hnames (getElem?_names hi)]
      exact hfields i f hi
  · rintro ⟨r, hr, hfields⟩
    cases j with
    | object members =>
      obtain ⟨hnamed, hvalues⟩ := record?_object_some hr
      exact .object hnamed fun f hf =>
        ⟨_, hvalues f.name (List.mem_map_of_mem hf), hfields f hf⟩
    | array items =>
      obtain ⟨hlength, hlookup⟩ := record?_array_some hnames hr
      refine .array hlength fun i f hi => ?_
      rw [← hlookup hi]
      exact hfields f (List.mem_of_getElem? hi)
    | _ => cases hr

theorem record_faulty_iff (hnames : (fields.map Field.name).Nodup) :
    Record.Faulty fields j ↔ ∀ r, j.record? (fields.map Field.name) = some r →
      ∃ f ∈ fields, f.Spoilt (r.lookup f.name) := by
  constructor
  · intro h r hr
    cases h with
    | noRecord hobject harray =>
      cases j with
      | object members => exact absurd rfl (hobject members)
      | array items => exact absurd rfl (harray items)
      | _ => cases hr
    | unnamed hv => exact absurd rfl ((record?_object_some hr).1 _ hv)
    | @twice _ f hf htwice =>
      rw [(record?_object_some hr).2 f.name (List.mem_map_of_mem hf)] at htwice
      exact absurd htwice (Nat.not_lt.mpr Option.length_toList_le)
    | @value _ f v hf hv hfaulty =>
      rw [(record?_object_some hr).2 f.name (List.mem_map_of_mem hf), Option.mem_toList] at hv
      refine ⟨f, hf, ?_⟩
      rwa [hv]
    | @missing _ f hf hnone hrequired =>
      rw [(record?_object_some hr).2 f.name (List.mem_map_of_mem hf), Option.toList_eq_nil_iff]
        at hnone
      refine ⟨f, hf, ?_⟩
      rwa [hnone]
    | long hlong => exact absurd (record?_array_some hnames hr).1 (Nat.not_le.mpr hlong)
    | @item _ _ f _ hi hv hfaulty =>
      refine ⟨f, List.mem_of_getElem? hi, ?_⟩
      rwa [(record?_array_some hnames hr).2 hi, hv]
    | @short _ _ f hi hshort hrequired =>
      refine ⟨f, List.mem_of_getElem? hi, ?_⟩
      rwa [(record?_array_some hnames hr).2 hi, List.getElem?_eq_none hshort]
  · intro h
    cases j with
    | object members =>
      cases hr : record? (fields.map Field.name) (.object members) with
      | none =>
        rcases record?_object_none hr with ⟨v, hv⟩ | ⟨name, hname, htwice⟩
        · exact .unnamed hv
        · obtain ⟨f, hf, rfl⟩ := List.mem_map.mp hname
          exact .twice hf htwice
      | some r =>
        obtain ⟨f, hf, hspoilt⟩ := h r hr
        have hvalues := (record?_object_some hr).2 f.name (List.mem_map_of_mem hf)
        cases hv : r.lookup f.name with
        | none =>
          rw [hv] at hspoilt hvalues
          exact .missing hf hvalues hspoilt
        | some v =>
          rw [hv] at hspoilt hvalues
          exact .value hf (by rw [hvalues]; exact List.mem_singleton_self v) hspoilt
    | array items =>
      by_cases hlength : items.length ≤ fields.length
      · obtain ⟨f, hf, hspoilt⟩ := h _ (if_pos (by rwa [List.length_map]))
        obtain ⟨i, hi⟩ := List.getElem?_of_mem hf
        rw [lookup_zip hnames (getElem?_names hi)] at hspoilt
        cases hv : items[i]? with
        | none =>
          rw [hv] at hspoilt
          exact .short hi (List.getElem?_eq_none_iff.mp hv) hspoilt
        | some v =>
          rw [hv] at hspoilt
          exact .item hi hv hspoilt
      · exact .long (Nat.lt_of_not_le hlength)
    | _ => exact .noRecord (fun _ => nofun) fun _ => nofun

/-- The reader finds a value exactly in what gives it, and none exactly in what has a fault. -/
structure Form.ReadBy (form : Form α) (read : Json → Option α) : Prop where
  some_iff : ∀ {j : Json} {a : α}, read j = some a ↔ form.Gives j a
  none_iff : ∀ {j : Json}, read j = none ↔ form.Faulty j

theorem below?_eq_some_iff {bound n : Nat} :
    j.below? bound = some n ↔ j = .number (some n) ∧ n < bound := by
  cases j with
  | number value? =>
    cases value? with
    | none => simp [below?]
    | some m =>
      simp only [below?, Option.ite_none_right_eq_some, Option.some.injEq, Json.number.injEq]
      constructor
      · rintro ⟨hlt, rfl⟩
        exact ⟨rfl, hlt⟩
      · rintro ⟨rfl, hlt⟩
        exact ⟨hlt, rfl⟩
  | _ => simp [below?]

/-- A word is read by way of its number, if the numbers below the bound are those of its words. -/
theorem word_reads {bound : Nat} {toNat : α → Nat} {ofNat : Nat → α}
    (hlt : ∀ w, toNat w < bound) (hof : ∀ w, ofNat (toNat w) = w)
    (hto : ∀ n < bound, toNat (ofNat n) = n) :
    (Form.word bound toNat).ReadBy fun j => (j.below? bound).map ofNat where
  some_iff {j w} := by
    rw [Option.map_eq_some_iff]
    constructor
    · rintro ⟨n, hn, rfl⟩
      obtain ⟨rfl, hbelow⟩ := below?_eq_some_iff.mp hn
      exact congrArg (fun n => Json.number (some n)) (hto n hbelow).symm
    · rintro rfl
      exact ⟨toNat w, below?_eq_some_iff.mpr ⟨rfl, hlt w⟩, hof w⟩
  none_iff {j} := by
    rw [Option.map_eq_none_iff, Option.eq_none_iff_forall_ne_some]
    constructor
    · exact fun h n hn heq => h n (below?_eq_some_iff.mpr ⟨heq, hn⟩)
    · exact fun h n hn => h n (below?_eq_some_iff.mp hn).2 (below?_eq_some_iff.mp hn).1

theorem word32_reads : Form.word32.ReadBy word32? :=
  word_reads UInt32.toNat_lt (fun _ => UInt32.ofNat_toNat) fun _ hn => UInt32.toNat_ofNat_of_lt' hn

theorem word64_reads : Form.word64.ReadBy word64? :=
  word_reads UInt64.toNat_lt (fun _ => UInt64.ofNat_toNat) fun _ hn => UInt64.toNat_ofNat_of_lt' hn

section

variable {form : Form β} {read : Json → Option β} {name : String} {get : α → β}
  {default? : Option β}

theorem takes_of_iff (hread : form.ReadBy read) (r : Record) :
    (Field.of name get form default?).Takes (r.lookup name) a
      ↔ r.field? name read default? = some (get a) := by
  rw [Record.field?]
  cases r.lookup name with
  | none => exact Iff.rfl
  | some v => exact hread.some_iff.symm

theorem spoilt_of_iff (hread : form.ReadBy read) (r : Record) :
    (Field.of name get form default?).Spoilt (r.lookup name)
      ↔ r.field? name read default? = none := by
  rw [Record.field?]
  cases r.lookup name with
  | none => exact Iff.rfl
  | some v => exact hread.none_iff.symm

end

/-- Reading goes on with these fields of a record, of which `P` is known. -/
structure Fills (r : Record) (P : α → Prop) (fields : List (Field α)) (x : Option α) : Prop where
  some_iff : ∀ {a : α}, x = some a ↔ P a ∧ ∀ f ∈ fields, f.Takes (r.lookup f.name) a
  none_iff : x = none ↔ ∃ f ∈ fields, f.Spoilt (r.lookup f.name)

namespace Fills

variable {r : Record} {P : α → Prop}

/-- All fields are read. -/
theorem done (h : ∀ b, P b ↔ b = a) : Fills r P [] (some a) where
  some_iff {b} := by
    rw [h, Option.some.injEq, eq_comm]
    exact (and_iff_left (List.forall_mem_nil _)).symm
  none_iff := by simp

/-- One field is read by its reader. -/
theorem field {form : Form β} {read : Json → Option β} {name : String} {get : α → β}
    {default? : Option β} {next : β → Option α} (hread : form.ReadBy read)
    (hnext : ∀ b, Fills r (fun a => P a ∧ get a = b) fields (next b)) :
    Fills r P (.of name get form default? :: fields)
      (r.field? name read default? >>= next) where
  some_iff {a} := by
    rw [Option.bind_eq_bind, Option.bind_eq_some_iff, List.forall_mem_cons]
    constructor
    · rintro ⟨b, hb, hfields⟩
      obtain ⟨⟨hP, rfl⟩, hrest⟩ := (hnext b).some_iff.mp hfields
      exact ⟨hP, (takes_of_iff hread r).mpr hb, hrest⟩
    · rintro ⟨hP, htakes, hrest⟩
      exact ⟨get a, (takes_of_iff hread r).mp htakes, (hnext _).some_iff.mpr ⟨⟨hP, rfl⟩, hrest⟩⟩
  none_iff := by
    have hspoilt : (Field.of name get form default?).Spoilt (r.lookup name)
        ↔ r.field? name read default? = none := spoilt_of_iff hread r
    cases hb : r.field? name read default? with
    | none =>
      exact ⟨fun _ => ⟨_, List.mem_cons_self, hspoilt.mpr hb⟩, fun _ => rfl⟩
    | some b =>
      rw [Option.bind_eq_bind, Option.bind_some, (hnext b).none_iff]
      constructor
      · rintro ⟨f, hf, h⟩
        exact ⟨f, List.mem_cons_of_mem _ hf, h⟩
      · rintro ⟨f, hf, h⟩
        rcases List.mem_cons.mp hf with rfl | hf
        · cases hb.symm.trans (hspoilt.mp h)
        · exact ⟨f, hf, h⟩

end Fills

/-- A record is read if all its fields are. -/
theorem Form.ReadBy.record (hnames : (fields.map Field.name).Nodup) {read : Record → Option α}
    (h : ∀ r, Fills r (fun _ => True) fields (read r)) :
    (Form.record fields).ReadBy fun j => j.record? (fields.map Field.name) >>= read where
  some_iff {j a} := by
    rw [Option.bind_eq_bind, Option.bind_eq_some_iff]
    refine Iff.trans (exists_congr fun r => and_congr_right fun _ => ?_)
      (record_gives_iff hnames).symm
    rw [(h r).some_iff, true_and]
  none_iff {j} := by
    rw [Option.bind_eq_bind, Option.bind_eq_none_iff]
    refine Iff.trans (forall_congr' fun r => imp_congr_right fun _ => ?_)
      (record_faulty_iff hnames).symm
    exact (h r).none_iff

end

end MemoryHierarchy.Json
