import TestSynth.Value.ParseError

/-!
# Errors

Why no test can be made. All but missing declarations concern one case only, and the run goes on
with the next.
-/

namespace TestSynth

/-- A reason why no test is made. -/
inductive Error where
  /-- The function under test is not declared. -/
  | unknownFunction (name : String)
  /-- The value of a parameter cannot be read. -/
  | malformedValue (cause : ParseError)
  /-- The type says nothing of what is stored `depth` dereferences away. -/
  | unresolvableType (type : String) (depth : Nat)
  /-- The declarations cannot be read. -/
  | noDeclarations
  deriving DecidableEq, Repr

namespace Error

/-- The error concerns one case only. -/
def isCaseLocal : Error → Bool
  | noDeclarations => false
  | _ => true

/-- The text of an error. -/
def message : Error → String
  | unknownFunction name => "Unknown function: " ++ name
  | malformedValue cause => "Malformed expression: " ++ cause.message
  | unresolvableType type depth =>
    "Unresolvable type: no pointer element at depth " ++ toString depth ++ " in '" ++ type ++ "'"
  | noDeclarations => "Knowledge base unavailable"

end Error

theorem bind_ok {ε α β : Type} {x : Except ε α} {f : α → Except ε β} {b : β}
    (h : (x >>= f) = .ok b) : ∃ a, x = .ok a ∧ f a = .ok b := by
  cases x with
  | error e => cases h
  | ok a => exact ⟨a, rfl, h⟩

end TestSynth
