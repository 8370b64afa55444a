import TestSynth.Case.Binding
import TestSynth.Case.Intake
import TestSynth.Case.Registry
import TestSynth.Case.Substitution
import TestSynth.Code.Allocation

/-!
# Test functions

A case becomes one function without parameters: it declares the arguments of the function under
test, allocates what they point to, assigns the literals of the model, makes the call and releases
all memory. A case that the run has seen before becomes nothing.
-/

namespace TestSynth

/-- A test function. -/
structure TestFunction where
  /-- The number of the case in the run. -/
  caseId : Nat
  /-- The function that makes the call under test. -/
  definition : Function
  /-- The symbols that are results of calls, which the test does not stub. -/
  callNames : Table String

namespace TestFunction

variable (d : Declarations) (o : Options)

/-- The assignments of the model's literals to all symbols that are not pointers. -/
def assignments (t : Tables) (exprs : Table Expr) : List Statement :=
  t.values.toList.filterMap fun (symbol, literal) => do
    let expr ← exprs[symbol]?
    let type ← t.types[symbol]?
    if d.isPointerType type then none else some (.assign expr.render literal)

/-- The body of the test of `function` with the given parameters, from the tables of its case. -/
def body (function : String) (parameters : List TypedName) (t : Tables) :
    Except Error (List Statement) :=
  match d.resolveParameters t with
  | (.error e, _) => .error (.malformedValue e)
  | (.ok (), t) => do
    let exprs := t.substituted
    let allocations ← Allocation.statements d o t exprs
    return parameters.map (fun p => .declare p.type p.name) ++ allocations ++
      assignments d t exprs ++
      [.call function (parameters.map (·.name)), .call o.releaser []]

/-- The name of the test for the case of `function` with a number. -/
def testName (function : String) (id : Nat) : String :=
  o.testMark ++ function ++ "_" ++ toString id

/-- The test of `function` for a case; there is none if the registry knows the case. A case counts
as seen also when no test can be made of it. -/
def ofCase (function : String) (c : Case) (r : Registry) :
    Except Error (Option TestFunction) × Registry :=
  let t := c.intake d
  match r.registerCase function t.values with
  | (none, r) => (.ok none, r)
  | (some id, r) =>
    let result := do
      let some parameters := d.parameters? function | .error (.unknownFunction function)
      let definition := ⟨testName o function id, ← body d o function parameters t⟩
      return some ⟨id, definition, t.callNames⟩
    (result, r)

/-- The tests of `function` for some cases. A case with an error of its own is passed over. -/
def ofCases (function : String) : List Case → Registry → Except Error (List TestFunction) × Registry
  | [], r => (.ok [], r)
  | c :: cs, r =>
    match ofCase d o function c r with
    | (.error e, r) => if e.isCaseLocal then ofCases function cs r else (.error e, r)
    | (.ok test?, r) =>
      let (tests, r) := ofCases function cs r
      (tests.map (test?.toList ++ ·), r)

/-- The note on a call result that is not stubbed. -/
def note (symbol callee : String) : String :=
  "/* " ++ symbol ++ " is the return of " ++ callee ++ "(), not stubbed */\n"

/-- A test in C, with the notes on its call results. -/
def render (indent : Nat) (test : TestFunction) : String :=
  String.join (test.callNames.toList.map fun (symbol, callee) => note symbol callee) ++
    test.definition.render indent

/-- The text of a file of tests, with an empty line between them. -/
def renderFile (indent : Nat) (tests : List TestFunction) : String :=
  String.intercalate "\n" (tests.map (render indent))

end TestFunction

end TestSynth
