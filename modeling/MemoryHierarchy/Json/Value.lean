import MemoryHierarchy.Json.Token

/-!
JSON values, and the reading of one from its tokens.

The reader keeps the containers that are open, innermost first, and what the text has to go on
with (`Reading`). It takes the tokens one by one, so values may be nested to any depth. Every
value has exactly one list of tokens (`Json.tokens`), and reading takes that list back to the
value.
-/

namespace MemoryHierarchy

/-- A JSON value. Of a number or string that has no value of interest only its place is kept. -/
inductive Json where
  | null
  | bool (value : Bool)
  | number (value? : Option Nat)
  | text (value? : Option String)
  | array (items : List Json)
  /-- The fields in the order of the text; names may repeat. -/
  | object (fields : List (Option String × Json))
  deriving Repr

namespace Json

mutual

/-- The tokens of a value. -/
def tokens : Json → List Token
  | .null => [.null]
  | .bool b => [.bool b]
  | .number n => [.number n]
  | .text t => [.text t]
  | .array items => .openArray :: itemTokens items ++ [.closeArray]
  | .object fields => .openObject :: fieldTokens fields ++ [.closeObject]

/-- The tokens between the brackets of an array. -/
def itemTokens : List Json → List Token
  | [] => []
  | [item] => item.tokens
  | item :: next :: rest => item.tokens ++ .comma :: itemTokens (next :: rest)

/-- The tokens between the braces of an object. -/
def fieldTokens : List (Option String × Json) → List Token
  | [] => []
  | [(name, value)] => .text name :: .colon :: value.tokens
  | (name, value) :: next :: rest =>
    .text name :: .colon :: value.tokens ++ .comma :: fieldTokens (next :: rest)

end

/-- A container that is still open, up to the value that is read next. What was read before is
given latest first. -/
inductive Frame where
  | array (before : List Json)
  | object (before : List (Option String × Json)) (name : Option String)
  deriving Repr

/-- What the text has to go on with. -/
inductive Expected where
  /-- A value. -/
  | value
  /-- The first item of an array, or its end. -/
  | firstItem
  /-- The first name of an object, or its end. -/
  | firstName
  /-- The name after a comma, in an object with these fields. -/
  | name (before : List (Option String × Json))
  /-- The colon behind a name. -/
  | colon (before : List (Option String × Json)) (name : Option String)
  /-- What may follow a value that is complete. -/
  | next (value : Json)
  deriving Repr

/-- A point within the tokens of a value. -/
structure Reading where
  /-- The containers that are open, innermost first. -/
  frames : List Frame
  expected : Expected
  deriving Repr

namespace Reading

/-- The point before the first token. -/
def start : Reading := ⟨[], .value⟩

/-- A value begins. -/
def beginValue (frames : List Frame) : Token → Option Reading
  | .openArray => some ⟨frames, .firstItem⟩
  | .openObject => some ⟨frames, .firstName⟩
  | .null => some ⟨frames, .next .null⟩
  | .bool b => some ⟨frames, .next (.bool b)⟩
  | .number n => some ⟨frames, .next (.number n)⟩
  | .text t => some ⟨frames, .next (.text t)⟩
  | _ => none

/-- Passes over a token, if it may stand here. -/
def step : Reading → Token → Option Reading
  | ⟨frames, .value⟩, token => beginValue frames token
  | ⟨frames, .firstItem⟩, .closeArray => some ⟨frames, .next (.array [])⟩
  | ⟨frames, .firstItem⟩, token => beginValue (.array [] :: frames) token
  | ⟨frames, .firstName⟩, .closeObject => some ⟨frames, .next (.object [])⟩
  | ⟨frames, .firstName⟩, .text name => some ⟨frames, .colon [] name⟩
  | ⟨frames, .name before⟩, .text name => some ⟨frames, .colon before name⟩
  | ⟨frames, .colon before name⟩, .colon => some ⟨.object before name :: frames, .value⟩
  | ⟨.array before :: frames, .next v⟩, .comma => some ⟨.array (v :: before) :: frames, .value⟩
  | ⟨.array before :: frames, .next v⟩, .closeArray =>
    some ⟨frames, .next (.array (v :: before).reverse)⟩
  | ⟨.object before name :: frames, .next v⟩, .comma =>
    some ⟨frames, .name ((name, v) :: before)⟩
  | ⟨.object before name :: frames, .next v⟩, .closeObject =>
    some ⟨frames, .next (.object ((name, v) :: before).reverse)⟩
  | _, _ => none

/-- The value, if the tokens may end here. -/
def finish? : Reading → Option Json
  | ⟨[], .next v⟩ => some v
  | _ => none

end Reading

/-- The value with these tokens. -/
def ofTokens? (tokens : List Token) : Option Json := do
  (← tokens.foldlM Reading.step Reading.start).finish?

/-- The value that a text holds. -/
def parse? (text : String) : Option Json := do
  ofTokens? (← tokens? text.toList)

end Json

end MemoryHierarchy
