import TestSynth.Table
import TestSynth.Text.Blank
import TestSynth.Text.Split

/-!
# Declarations

What a C front end knows of a program: the parameters of its functions, the types of its global
variables, its typedefs and the fields of its records. Several compilation units are merged into one
set of declarations; the unit that comes first is believed.
-/

namespace TestSynth

/-- A name with its type: a parameter of a function or a field of a record. -/
structure TypedName where
  name : String
  type : String
  deriving DecidableEq, Repr

/-- The declarations of one or more compilation units. -/
structure Declarations where
  /-- Parameters of each function, in order. -/
  functions : Table (List TypedName) := ∅
  /-- Type of each global variable. -/
  globals : Table String := ∅
  /-- What each typedef name stands for. -/
  typedefs : Table String := ∅
  /-- Fields of each record, in order. -/
  structs : Table (List TypedName) := ∅

namespace Declarations

variable (d : Declarations)

/-- The parameters of a function. -/
def parameters? (function : String) : Option (List TypedName) := d.functions[function]?

/-- The function is declared. -/
def hasFunction (function : String) : Bool := d.functions.contains function

/-- The declared type of a global variable. -/
def variableType? (name : String) : Option String := d.globals[name]?

/-- What a name stands for, one typedef deep; blanks around the name do not matter. -/
def typedefTarget? (name : String) : Option String := d.typedefs[Text.trimmed name]?

/-- The name of a record without the keyword in front of it. -/
def recordName (name : String) : String :=
  let s := Text.trim name.toList
  match (Text.after? "struct ".toList s).or (Text.after? "union ".toList s) with
  | some rest => String.ofList (Text.trim rest)
  | none => String.ofList s

/-- The fields of a record, asked for as it is spelled or without its keyword. -/
def fields? (record : String) : Option (List TypedName) :=
  d.structs[Text.trimmed record]?.or d.structs[recordName record]?

/-- The declarations of two units; what `d` declares is kept. -/
def merge (other : Declarations) : Declarations where
  functions := d.functions.orElse other.functions
  globals := d.globals.orElse other.globals
  typedefs := d.typedefs.orElse other.typedefs
  structs := d.structs.orElse other.structs

/-- The declarations of all units; the first declaration of a name is kept. -/
def ofUnits (units : List Declarations) : Declarations := units.foldl merge {}

end Declarations

end TestSynth
