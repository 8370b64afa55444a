import TestSynth.Json.Token

/-!
# JSON

`Json.parse` reads a text into a value that keeps every member of an object, repeated ones included,
so that whoever uses the value decides what a repetition means. Nesting is no limit to it. In
`Json.parseStrict` every string must have a text, every number must be finite as the product of two
doubles, its digits and its power of ten, and no value may be nested more than 127 deep.
-/

namespace TestSynth

/-- A JSON value. A string without a text holds an escape that names no character. -/
inductive Json where
  | null
  | bool (value : Bool)
  | number (value : Decimal)
  | string (text : Option String)
  | array (items : List Json)
  | object (members : List (Option String × Json))
  deriving Repr

namespace Json

/-- A container that is being read; what it holds so far, the last first. -/
inductive Frame where
  | array (items : List Json)
  | object (members : List (Option String × Json))
  /-- An object whose next member has the given name. -/
  | member (members : List (Option String × Json)) (name : Option String)
  deriving Repr

/-- What may follow the tokens read so far, inside the containers that are open. -/
inductive State where
  /-- A value. -/
  | value (outer : List Frame)
  /-- The first item of an array, or its end. -/
  | firstItem (outer : List Frame)
  /-- The first name of an object, or its end. -/
  | firstName (outer : List Frame)
  /-- The name of a further member. -/
  | furtherName (members : List (Option String × Json)) (outer : List Frame)
  /-- The colon behind a name. -/
  | colon (members : List (Option String × Json)) (name : Option String) (outer : List Frame)
  /-- A comma, or the end of the innermost container. -/
  | next (inner : Frame) (outer : List Frame)
  /-- Nothing. -/
  | done (value : Json)
  deriving Repr

/-- A value has been read inside some containers. -/
def State.close (v : Json) : List Frame → State
  | [] => .done v
  | .array items :: outer => .next (.array (v :: items)) outer
  | .object members :: outer => .next (.object members) outer
  | .member members name :: outer => .next (.object ((name, v) :: members)) outer

/-- Reads a token where a value may stand. -/
def State.valueToken (frames : List Frame) : Token → Option State
  | .openBrace => some (.firstName frames)
  | .openBracket => some (.firstItem frames)
  | .null => some (close .null frames)
  | .bool b => some (close (.bool b) frames)
  | .number n => some (close (.number n) frames)
  | .string s => some (close (.string s) frames)
  | _ => none

/-- Reads a token. -/
def State.step : State → Token → Option State
  | .value frames, t => valueToken frames t
  | .firstItem outer, .closeBracket => some (close (.array []) outer)
  | .firstItem outer, t => valueToken (.array [] :: outer) t
  | .firstName outer, .closeBrace => some (close (.object []) outer)
  | .firstName outer, .string name => some (.colon [] name outer)
  | .furtherName members outer, .string name => some (.colon members name outer)
  | .colon members name outer, .colon => some (.value (.member members name :: outer))
  | .next (.array items) outer, .comma => some (.value (.array items :: outer))
  | .next (.array items) outer, .closeBracket => some (close (.array items.reverse) outer)
  | .next (.object members) outer, .comma => some (.furtherName members outer)
  | .next (.object members) outer, .closeBrace => some (close (.object members.reverse) outer)
  | _, _ => none

/-- The value that some tokens form. -/
def ofTokens? (ts : List Token) : Option Json :=
  match ts.foldlM State.step (.value []) with
  | some (.done v) => some v
  | _ => none

/-- Reads a text. -/
def parse (source : String) : Option Json := (tokens source.toList).bind ofTokens?

/-- The token says what every reader can use. -/
def Token.isSound : Token → Bool
  | .string none => false
  | .number n => n.isFiniteByFactors
  | _ => true

/-- No token stands inside more than `limit` containers, of which `depth` are open already. -/
def nestsWithin (limit depth : Nat) : List Token → Bool
  | [] => true
  | t :: ts =>
    match t with
    | .openBrace | .openBracket => depth < limit && nestsWithin limit (depth + 1) ts
    | .closeBrace | .closeBracket => nestsWithin limit (depth - 1) ts
    | _ => nestsWithin limit depth ts

/-- Reads a text in which every part must be usable. -/
def parseStrict (source : String) : Option Json := do
  let ts ← tokens source.toList
  if ts.all Token.isSound && nestsWithin 127 0 ts then ofTokens? ts else none

end Json

end TestSynth
