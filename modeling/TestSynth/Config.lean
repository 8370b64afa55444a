import TestSynth.Code.Options
import TestSynth.Path
import TestSynth.Toml.Parser
import TestSynth.Toml.Quoted

/-!
# Configuration

The configuration is a TOML document with three sections, each of which and each field of which may
be missing. What is not known is ignored.
-/

namespace TestSynth

/-- The configuration of a run. -/
structure Config where
  options : Options := {}
  /-- The compilation database. -/
  compileCommands : Path := ⟨"codechecker_commands.json"⟩
  /-- The dump of declarations. -/
  declarations : Path := ⟨"cut_knowledge.json"⟩
  logLevel : String := "info"
  deriving DecidableEq, Repr

namespace Config

/-- The values of some fields of a section, in their order. A section is a table, or an array with
its fields in their order; a date says nothing of any field. -/
def fields? (names : List String) : Toml.Value → Option (List (Option Toml.Value))
  | .table _ entries => some (names.map (List.lookup · entries))
  | .array items => some (names.mapIdx fun i _ => items[i]?)
  | .tables elements =>
    some (names.mapIdx fun i _ => elements.reverse[i]?.map (Toml.Value.table .header))
  | .date => some (names.map fun _ => none)
  | _ => none

/-- A text, or the default where there is none. -/
def textOr? (default : String) : Option Toml.Value → Option String
  | none => some default
  | some (.string text) => some text
  | some _ => none

/-- A natural number, or the default where there is none. -/
def naturalOr? (default : Nat) : Option Toml.Value → Option Nat
  | none => some default
  | some (.integer (.ofNat n)) => some n
  | some _ => none

/-- The options of the section on generated code. -/
def options? : Option Toml.Value → Option Options
  | none => some {}
  | some section_ => do
    let o : Options := {}
    let [test, alloc, release, counter, indent] ←
      fields? ["test_prefix", "alloc_fn", "release_fn", "loop_var_prefix", "indent"] section_ | none
    return {
      testMark := ← textOr? o.testMark test
      allocator := ← textOr? o.allocator alloc
      releaser := ← textOr? o.releaser release
      counterMark := ← textOr? o.counterMark counter
      indent := ← naturalOr? o.indent indent }

/-- The texts of a section that holds nothing else, given their names and defaults. -/
def texts? (names defaults : List String) : Option Toml.Value → Option (List String)
  | none => some defaults
  | some section_ => do
    let values ← fields? names section_
    (values.zip defaults).mapM fun (value, default) => textOr? default value

/-- Reads a configuration. -/
def parse (source : String) : Option Config := do
  let entries ← Toml.parse source
  let c : Config := {}
  let options ← options? (List.lookup "codegen" entries)
  let [commands, declarations] ←
    texts? ["compile_commands", "knowledge"] [c.compileCommands.text, c.declarations.text]
      (List.lookup "input" entries) | none
  let [level] ← texts? ["level"] [c.logLevel] (List.lookup "log" entries) | none
  return ⟨options, ⟨commands⟩, ⟨declarations⟩, level⟩

/-- The line of a field with a text. -/
def textLine (name text : String) : String := name ++ " = " ++ Toml.quote text ++ "\n"

/-- The text of a configuration, with all its fields. -/
def render (c : Config) : String :=
  "[codegen]\n" ++ textLine "test_prefix" c.options.testMark ++
    textLine "alloc_fn" c.options.allocator ++ textLine "release_fn" c.options.releaser ++
    textLine "loop_var_prefix" c.options.counterMark ++
    "indent = " ++ toString c.options.indent ++ "\n" ++
    "\n[input]\n" ++ textLine "compile_commands" c.compileCommands.text ++
    textLine "knowledge" c.declarations.text ++
    "\n[log]\n" ++ textLine "level" c.logLevel

end Config

end TestSynth
