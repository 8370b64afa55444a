/-!
# Parse errors

Why a text is not a value. Positions are byte offsets.
-/

namespace TestSynth

/-- A reason why a text is not a value. -/
inductive ParseError where
  /-- Something else stands where `expected` should. -/
  | unexpectedToken (position : Nat) (expected found : String)
  /-- The text ends before a value begins. -/
  | unexpectedEnd
  /-- The group opened by `delimiter` is not closed. -/
  | unclosed (delimiter : String) (position : Nat)
  /-- The text is no index of an element. -/
  | invalidIndex (text : String)
  /-- Values are nested more than `limit` deep. -/
  | tooDeep (depth limit : Nat)
  deriving DecidableEq, Repr

namespace ParseError

/-- The text of an error. -/
def message : ParseError → String
  | unexpectedToken position expected found =>
    "Unexpected token at position " ++ toString position ++ ": expected " ++ expected ++
      ", found " ++ found
  | unexpectedEnd => "Unexpected end of input"
  | unclosed delimiter position =>
    "Unclosed delimiter '" ++ delimiter ++ "' opened at position " ++ toString position
  | invalidIndex text => "Invalid element index: " ++ text
  | tooDeep depth limit =>
    "Maximum parsing depth exceeded: depth " ++ toString depth ++ " exceeds limit of " ++
      toString limit

end ParseError

end TestSynth
