import TestSynth.Case.Intake
import TestSynth.Json.Record

/-!
# Case files

A case file is a JSON list of records, one for each case, of which any field may be missing.
-/

namespace TestSynth.Case

open Json (text? list? table? fields? defaulted?)

/-- A case. -/
def ofJson? (j : Json) : Option Case := do
  let [parameters, model, types] ← fields? ["parameters", "model", "types"] j | none
  return {
    parameters := ← defaulted? ∅ (table? text?) parameters
    model := ← defaulted? "" text? model
    types := ← defaulted? ∅ (table? text?) types }

/-- The cases of a file. -/
def ofFile? (source : String) : Option (List Case) := (Json.parse source).bind (list? ofJson?)

end TestSynth.Case
