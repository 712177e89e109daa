import MemoryHierarchy.Json.Number
import MemoryHierarchy.Json.Text

/-!
The tokens of a JSON text: brackets, commas, colons, literals, numbers and strings. Blanks may
stand between them.
-/

namespace MemoryHierarchy.Json

/-- A token. -/
inductive Token where
  | openObject
  | closeObject
  | openArray
  | closeArray
  | comma
  | colon
  | null
  | bool (value : Bool)
  /-- A number; it has a value if it is written without sign, fraction and exponent. -/
  | number (value? : Option Nat)
  /-- A string; it has a value unless it escapes a surrogate without its partner. -/
  | text (value? : Option String)
  deriving Repr, DecidableEq

/-- The characters that may stand between tokens. -/
def isBlank (c : Char) : Bool := c == ' ' || c == '\t' || c == '\n' || c == '\r'

/-- The token at the beginning of a text, and what follows it. -/
def Token.first? : List Char → Option (Token × List Char)
  | '\x7b' :: rest => some (.openObject, rest)
  | '\x7d' :: rest => some (.closeObject, rest)
  | '[' :: rest => some (.openArray, rest)
  | ']' :: rest => some (.closeArray, rest)
  | ',' :: rest => some (.comma, rest)
  | ':' :: rest => some (.colon, rest)
  | '"' :: rest => (readText rest).map fun (value?, rest) => (.text value?, rest)
  | 'n' :: 'u' :: 'l' :: 'l' :: rest => some (.null, rest)
  | 't' :: 'r' :: 'u' :: 'e' :: rest => some (.bool true, rest)
  | 'f' :: 'a' :: 'l' :: 's' :: 'e' :: rest => some (.bool false, rest)
  | cs => (readNumber cs).map fun (value?, rest) => (.number value?, rest)

theorem Token.first?_shorter {cs rest : List Char} {t : Token}
    (h : Token.first? cs = some (t, rest)) : rest.length < cs.length := by
  unfold Token.first? at h
  split at h
  case h_7 =>
    obtain ⟨⟨w, r⟩, hr, he⟩ := Option.map_eq_some_iff.mp h
    obtain ⟨-, rfl⟩ := Prod.mk.inj he
    obtain ⟨⟨ps, r'⟩, hp, he⟩ := Option.map_eq_some_iff.mp hr
    obtain ⟨-, rfl⟩ := Prod.mk.inj he
    exact Nat.lt_succ_of_lt (readPieces_shorter hp)
  case h_11 =>
    obtain ⟨⟨w, r⟩, hr, he⟩ := Option.map_eq_some_iff.mp h
    obtain ⟨-, rfl⟩ := Prod.mk.inj he
    exact readNumber_shorter hr
  all_goals
    obtain ⟨-, rfl⟩ := Prod.mk.inj (Option.some.inj h)
    simp only [List.length_cons]
    omega

/-- The tokens of a text. -/
def tokens? : List Char → Option (List Token)
  | [] => some []
  | c :: rest =>
    if isBlank c then tokens? rest
    else
      match h : Token.first? (c :: rest) with
      | some (token, rest') =>
        have : rest'.length < (c :: rest).length := Token.first?_shorter h
        (tokens? rest').map (token :: ·)
      | none => none
termination_by cs => cs.length
decreasing_by all_goals simp only [List.length_cons] at *; omega

end MemoryHierarchy.Json
