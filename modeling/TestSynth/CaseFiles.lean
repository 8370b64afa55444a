import TestSynth.Files
import TestSynth.Text.Split

/-!
# Finding case files

The cases of a function lie beside its source, in a file named after both:
`<source>_<function>.json`. The tests go into `<source>_test_<function>.c`.
-/

namespace TestSynth

/-- A case file of one function. -/
structure CaseFile where
  path : Path
  function : String
  deriving DecidableEq, Repr

namespace CaseFile

/-- The function whose cases a file holds, given the name of the source and of the file. -/
def function? (source file : String) : Option String := do
  let stem ← Text.before? ".json".toList file.toList
  match ← Text.after? (source ++ "_").toList stem with
  | [] => none
  | function => some (String.ofList function)

/-- The path of the tests of a function. -/
def output (source : Path) (function : String) : Path :=
  ⟨source.text ++ "_test_" ++ function ++ ".c"⟩

/-- Why case files cannot be found. -/
inductive Fault where
  /-- The directory cannot be listed. -/
  | unlistable (directory : Path)
  deriving DecidableEq, Repr

/-- The case files beside a source, in the order of their names. A source without a name of its own,
or in a directory that does not exist, has none. -/
def find {m : Type → Type} [Monad m] [Files m] (source : Path) :
    m (Except Fault (List CaseFile)) := do
  let some name := source.fileName? | return .ok []
  let directory :=
    match source.parent? with
    | some ⟨""⟩ | none => ⟨"."⟩
    | some parent => parent
  unless ← Files.isDirectory directory do return .ok []
  let some names ← Files.names? directory | return .error (.unlistable directory)
  let candidates := names.filterMap fun file =>
    (function? name file).map fun function => CaseFile.mk (directory.join ⟨file⟩) function
  let found ← candidates.filterM fun c => Files.isFile c.path
  return .ok (found.mergeSort fun a b => a.path.text ≤ b.path.text)

end CaseFile

end TestSynth
