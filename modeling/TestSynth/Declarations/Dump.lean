import TestSynth.Declarations
import TestSynth.Error
import TestSynth.Json.Record

/-!
# Dumps of declarations

The front end writes what it knows of a compilation unit as a JSON record. A dump holds one unit or
a list of units; what is written as an array is taken for a list of units whenever that is possible.
-/

namespace TestSynth

open Json (text? list? table? required? defaulted?)

/-- A typed name, which has both fields. -/
def TypedName.ofJson? (j : Json) : Option TypedName := do
  let [name, type] ← Json.fields? ["name", "type"] j | none
  return ⟨← required? text? name, ← required? text? type⟩

namespace Declarations

/-- The declarations of one unit, of which any section may be missing. -/
def ofJson? (j : Json) : Option Declarations := do
  let [functions, globals, typedefs, structs] ←
    Json.fields? ["functions", "variables", "typedefs", "structs"] j | none
  let typedNames := table? (list? TypedName.ofJson?)
  return {
    functions := ← defaulted? ∅ typedNames functions
    globals := ← defaulted? ∅ (table? text?) globals
    typedefs := ← defaulted? ∅ (table? text?) typedefs
    structs := ← defaulted? ∅ typedNames structs }

/-- The declarations of a dump. -/
def ofDump (source : String) : Except Error Declarations :=
  let units? := (Json.parseStrict source).bind fun j =>
    (list? ofJson? j).or ((ofJson? j).map ([·]))
  match units? with
  | some units => .ok (ofUnits units)
  | none => .error .noDeclarations

end Declarations

end TestSynth
