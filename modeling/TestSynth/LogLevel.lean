import TestSynth.Text.Blank

/-!
# Log levels
-/

namespace TestSynth

/-- How much is logged. -/
inductive LogLevel where
  | info
  | debug
  deriving DecidableEq, Repr

namespace LogLevel

/-- The name of a level. -/
def name : LogLevel → String
  | info => "info"
  | debug => "debug"

/-- The level that a text asks for: blanks around it and the case of ASCII letters do not matter,
and what is no level stands for `info`. -/
def ofText (text : String) : LogLevel :=
  if (Text.trim text.toList).map Char.toLower = "debug".toList then debug else info

/-- What is said at a level is shown at this one. -/
def shows : LogLevel → LogLevel → Bool
  | info, debug => false
  | _, _ => true

end LogLevel

end TestSynth
