import TestSynth.Case.File
import TestSynth.CaseFiles
import TestSynth.Code.TestFunction
import TestSynth.Command.Arguments
import TestSynth.CompileCommand
import TestSynth.Config
import TestSynth.Declarations.Dump
import TestSynth.LogLevel

/-!
# Runs

What each command does, over any system that has `Files`. A run ends at its first failure; what is
printed and written before it stays. All tests of a run come from one registry, so that a case which
several files describe is tested once.
-/

namespace TestSynth

/-- Why a run ends early. -/
inductive Failure where
  | configUnread (path : Path)
  | configInvalid (path : Path)
  | declarationsUnread (path : Path)
  | compileCommandsUnread (path : Path)
  | compileCommandsInvalid (path : Path)
  | casesUnread (path : Path)
  | casesInvalid (path : Path)
  | directoryUnlisted (path : Path)
  /-- No tests can be made at all. -/
  | untestable (cause : Error)
  /-- No tests can be made of the cases of a file. -/
  | casesUntestable (path : Path) (cause : Error)
  | testsUnwritten (path : Path)
  /-- A directory cannot be made, for the reason that the system gives. -/
  | directoryUnmade (reason : String)
  | configUnwritten (path : Path)
  deriving DecidableEq, Repr

/-- The text of a failure. -/
def Failure.message : Failure → String
  | configUnread path => "Failed to read config " ++ path.text
  | configInvalid path => "Invalid config " ++ path.text
  | declarationsUnread path => "Failed to load knowledge base " ++ path.text
  | compileCommandsUnread path => "Failed to read compile commands " ++ path.text
  | compileCommandsInvalid path => "Failed to parse compile commands " ++ path.text
  | casesUnread path => "Failed to read case file " ++ path.text
  | casesInvalid path => "Failed to parse case file " ++ path.text
  | directoryUnlisted path => "Failed to list " ++ path.text
  | untestable cause => cause.message
  | casesUntestable path _ => "Failed to translate " ++ path.text
  | testsUnwritten path => "Failed to write " ++ path.text
  | directoryUnmade reason => reason
  | configUnwritten path => "Failed to write config " ++ path.text

section

variable {m : Type → Type} [Monad m] [Files m]

/-- The text of a file that the run cannot do without. -/
def readOr (failure : Path → Failure) (path : Path) : ExceptT Failure m String := do
  match ← (Files.read? path : m _) with
  | some text => return text
  | none => throw (failure path)

/-- A value that the run cannot do without. -/
def orFail {α : Type} (failure : Failure) : Option α → ExceptT Failure m α
  | some a => return a
  | none => throw failure

/-- The configuration file of a user, given the user's home. -/
def Config.inHome (home : Path) : Path := (home.join ⟨".cut"⟩).join ⟨"config.toml"⟩

/-- The configuration of a file. -/
def Config.read (path : Path) : ExceptT Failure m Config := do
  orFail (.configInvalid path) (Config.parse (← readOr .configUnread path))

/-- The configuration of the file that is asked for, or else of the user's own if there is one. -/
def Config.load (asked home : Option Path) : ExceptT Failure m Config := do
  match asked, home.map Config.inHome with
  | some path, _ => Config.read path
  | none, some path => if ← (Files.isPresent path : m _) then Config.read path else return {}
  | none, none => return {}

/-- Writes a configuration to a file, in a directory that is made if it is missing. -/
def Config.save (c : Config) (path : Path) : ExceptT Failure m Unit := do
  match path.parent? with
  | some ⟨""⟩ | none => pure ()
  | some parent =>
    if let .error reason ← (Files.makeDirectories parent : m _) then
      throw (.directoryUnmade reason)
  unless ← (Files.write path c.render : m _) do throw (.configUnwritten path)

/-- The declarations of a dump. -/
def Declarations.load (path : Path) : ExceptT Failure m Declarations := do
  let source ← readOr .declarationsUnread path
  orFail (.declarationsUnread path) (Declarations.ofDump source).toOption

/-- The entries of a compilation database. -/
def CompileCommand.load (path : Path) : ExceptT Failure m (List CompileCommand) := do
  let source ← readOr .compileCommandsUnread path
  orFail (.compileCommandsInvalid path) (CompileCommand.ofDatabase? source)

/-- The cases of a file. -/
def Case.load (path : Path) : ExceptT Failure m (List Case) := do
  orFail (.casesInvalid path) (Case.ofFile? (← readOr .casesUnread path))

/-- The case files beside a source. -/
def CaseFile.beside (source : Path) : ExceptT Failure m (List CaseFile) := do
  match ← (CaseFile.find source : m _) with
  | .ok files => return files
  | .error (.unlistable directory) => throw (.directoryUnlisted directory)

end

namespace Command

variable {m : Type → Type} [Monad m] [Files m]

/-- What the generation of tests depends on. -/
structure Setting where
  declarations : Declarations
  options : Options
  /-- The tests are printed and not written. -/
  printOnly : Bool
  /-- How much is reported. -/
  level : LogLevel

/-- What a run has made so far. -/
structure Progress where
  registry : Registry := {}
  /-- The files of tests, the latest first. -/
  outputs : List Path := []
  /-- The number of tests in them. -/
  testCount : Nat := 0

/-- Reports what a level has to say, if it is shown. -/
def report (shown level : LogLevel) (text : String) : ExceptT Failure m Unit := do
  if shown.shows level then (Files.report text : m _)

/-- Makes the tests of one case file. Where no case is new, there is no output. -/
def Setting.generateFile (s : Setting) (source : Path) (p : Progress) (file : CaseFile) :
    ExceptT Failure m Progress := do
  report s.level .info file.path.text
  let cases ← Case.load file.path
  match TestFunction.ofCases s.declarations s.options file.function cases p.registry with
  | (.error cause, _) => throw (.casesUntestable file.path cause)
  | (.ok [], registry) =>
    report s.level .debug ("no new cases in " ++ file.path.text)
    return { p with registry }
  | (.ok tests, registry) =>
    let output := CaseFile.output source file.function
    let text := TestFunction.renderFile s.options.indent tests
    if s.printOnly then (Files.print text : m _)
    else
      unless ← (Files.write output text : m _) do throw (.testsUnwritten output)
      (Files.print ("✓ " ++ output.text ++ " (" ++ toString tests.length ++ " tests)\n") : m _)
    return ⟨registry, output :: p.outputs, p.testCount + tests.length⟩

/-- Makes the tests of one source. -/
def Setting.generateSource (s : Setting) (p : Progress) (source : Path) :
    ExceptT Failure m Progress := do
  (← CaseFile.beside source).foldlM (s.generateFile source) p

/-- Makes the tests of some sources, one after the other. -/
def Setting.generate (s : Setting) (sources : List Path) : ExceptT Failure m Progress :=
  sources.foldlM s.generateSource {}

/-- Does what a command says. -/
def run (config : Config) (level : LogLevel) : Command → ExceptT Failure m Unit
  | .generate compileCommands declarations printOnly => do
    let d ← Declarations.load (declarations.getD config.declarations)
    let commands ← CompileCommand.load (compileCommands.getD config.compileCommands)
    for c in commands do
      report level .debug (c.source.text ++ ": " ++ c.commandLine)
    let p ← Setting.generate ⟨d, config.options, printOnly, level⟩
      (CompileCommand.uniqueSources commands)
    report level .info (toString p.testCount ++ " test functions for " ++
      toString p.outputs.length ++ " functions, " ++ toString p.registry.size ++
      " distinct cases")
  | .translate caseFile function declarations => do
    let d ← Declarations.load (declarations.getD config.declarations)
    let cases ← Case.load caseFile
    match TestFunction.ofCases d config.options function cases {} with
    | (.error cause, _) => throw (.untestable cause)
    | (.ok tests, _) => (Files.print (TestFunction.renderFile config.options.indent tests) : m _)
  | .config (some output) => config.save output
  | .config none => (Files.print config.render : m _)

end Command

section

variable {m : Type → Type} [Monad m] [Files m]

/-- Does what a command line asks for, with the user's configuration where it names no other. -/
def Invocation.run (i : Invocation) (home : Option Path) : ExceptT Failure m Unit := do
  let config ← Config.load i.config home
  i.command.run config (LogLevel.ofText (i.logLevel.getD config.logLevel))

/-- How a run ends. -/
inductive Ending where
  | done
  | failed (failure : Failure)
  /-- The command line is misused, and nothing is done. -/
  | misused
  deriving DecidableEq, Repr

/-- The status that the system is given at the end. -/
def Ending.status : Ending → Nat
  | done => 0
  | failed _ => 1
  | misused => 2

/-- What the program prints when it is asked for its version. -/
def version : String := "cut 0.1.0\n"

/-- A whole run, given the user's home and the words behind the program's name. -/
def runArguments (home : Option Path) (arguments : List String) : m Ending := do
  match Request.ofArguments arguments with
  | none => return .misused
  | some .version =>
    Files.print version
    return .done
  | some (.invocation i) =>
    match ← (i.run home).run with
    | .ok () => return .done
    | .error failure => return .failed failure

end

end TestSynth
