import TestSynth.Command.Run

/-!
# The program

The system's own files, and the end of a run as the system sees it. What is printed goes to the
standard output; reports and failures go to the standard error.
-/

namespace TestSynth

instance : Files IO where
  read? p := try some <$> IO.FS.readFile p.text catch _ => return none
  isPresent p := try (← IO.FS.realPath p.text).pathExists catch _ => return false
  isFile p :=
    try
      match (← (← IO.FS.realPath p.text).metadata).type with
      | .file => return true
      | _ => return false
    catch _ => return false
  isDirectory p := try (← IO.FS.realPath p.text).isDir catch _ => return false
  names? p :=
    try
      return some ((← (← IO.FS.realPath p.text).readDir).toList.map (·.fileName))
    catch _ => return none
  makeDirectories p :=
    try
      IO.FS.createDirAll p.text
      return .ok ()
    catch e => return .error (toString e)
  write p text :=
    try
      IO.FS.writeFile p.text text
      return true
    catch _ => return false
  print text := do
    let out ← IO.getStdout
    out.putStr text
    out.flush
  report text := IO.eprintln text

/-- What the user is told whose command line is misused. -/
def usage : String := "usage: cut [--config FILE] [--verbose LEVEL] COMMAND

commands:
  generate [--compile-commands FILE] [--knowledge FILE] [--dry-run]
  translate CASE_FILE --function NAME [--knowledge FILE]
  config [--output FILE]"

end TestSynth

open TestSynth in
/-- Runs the program on its command line. -/
def main (arguments : List String) : IO UInt32 := do
  let home := (← IO.getEnv "HOME").filter (! ·.isEmpty)
  let ending ← runArguments (home.map TestSynth.Path.mk) arguments
  match ending with
  | .done => pure ()
  | .failed failure => IO.eprintln ("Error: " ++ failure.message)
  | .misused => IO.eprintln usage
  return ending.status.toUInt32
