import TestSynth.Case.Model
import TestSynth.Case.Tables
import TestSynth.Declarations

/-!
# Intake of cases

A case describes one feasible path: the values of its parameters, a solver model and the types of
its symbols. Each parameter goes one of three ways. It is dropped if it is bound to a compiler
builtin; it is set aside as a call result if it is a conjured symbol whose value names a known
function; otherwise it is kept as it is.
-/

namespace TestSynth

/-- A case as the analysis reports it. -/
structure Case where
  parameters : Table String := ∅
  model : String := ""
  types : Table String := ∅

/-- What becomes of a parameter. -/
inductive Fate where
  | dropped
  | callResult
  | kept
  deriving DecidableEq, Repr

/-- Values of the compiler's own begin with this. -/
def builtinMark : String := "__builtin"

/-- The names of symbols that have no origin in the source begin with this. -/
def conjuredMark : String := "conj_$"

/-- What becomes of the parameter `name` with the value `text`. -/
def Declarations.fate (d : Declarations) (name text : String) : Fate :=
  if builtinMark.toList.isPrefixOf text.toList then .dropped
  else if conjuredMark.toList.isPrefixOf name.toList && d.hasFunction (Text.trimmed text) then
    .callResult
  else .kept

/-- What becomes of what is known of the symbol `name`: only parameters are dropped or set aside. -/
def Case.fate (c : Case) (d : Declarations) (name : String) : Fate :=
  match c.parameters[name]? with
  | some text => d.fate name text
  | none => .kept

/-- The tables with which the reading of a case begins. -/
def Case.intake (c : Case) (d : Declarations) : Tables :=
  let values := Model.parse c.model
  { parameters := c.parameters.filter fun name text => d.fate name text == .kept
    values := values.filter fun name _ => c.fate d name == .kept
    types := c.types.filter fun name _ => c.fate d name != .dropped
    callNames := c.parameters.filter fun name text => d.fate name text == .callResult
    callValues := values.filter fun name _ => c.fate d name == .callResult }

end TestSynth
