import TestSynth.Json.Record
import TestSynth.Path

/-!
# Compilation databases

A compilation database is a JSON list of records: how each source of a project is compiled, and from
which directory.
-/

namespace TestSynth

open Json (text? list? fields? required? defaulted? nullable?)

/-- An entry of a compilation database. -/
structure CompileCommand where
  directory : Path
  file : Path
  /-- The compiler call as one line. -/
  command : Option String := none
  /-- The compiler call as a list, where it is not given as one line. -/
  arguments : List String := []
  deriving DecidableEq, Repr

namespace CompileCommand

/-- The path of the source, seen from where the program runs. -/
def source (c : CompileCommand) : Path := c.directory.join c.file

/-- The compiler call as one line. -/
def commandLine (c : CompileCommand) : String :=
  c.command.getD (String.intercalate " " c.arguments)

/-- An entry. -/
def ofJson? (j : Json) : Option CompileCommand := do
  let [directory, file, command, arguments] ←
    fields? ["directory", "file", "command", "arguments"] j | none
  return {
    directory := ⟨← required? text? directory⟩
    file := ⟨← required? text? file⟩
    command := ← defaulted? none (nullable? text?) command
    arguments := ← defaulted? [] (list? text?) arguments }

/-- The entries of a database. -/
def ofDatabase? (source : String) : Option (List CompileCommand) :=
  (Json.parse source).bind (list? ofJson?)

/-- The paths without those that agree with an earlier one. -/
def distinct (paths : List Path) : List Path :=
  paths.foldl (fun kept p => if kept.any p.agree then kept else kept ++ [p]) []

/-- The sources of all entries, each once, as it is spelled first. -/
def uniqueSources (cs : List CompileCommand) : List Path := distinct (cs.map source)

end CompileCommand

end TestSynth
