import TestSynth.Declarations
import TestSynth.TypeSpelling

/-!
# Resolution of typedefs

`resolveType` replaces the base of a type by what its typedef stands for, again and again, and keeps
the suffix: stars inside a typedef come before those of the type that uses it. A typedef is
followed at most once, so the walk ends on every table, cyclic ones included.
-/

namespace TestSynth

open TypeSpelling

/-- The base and the suffix reached from `base` through `typedefs`. A typedef that was followed is
taken out of the table. -/
def followTypedefs (typedefs : Table String) (base suffix : List Char) : List Char × List Char :=
  let name := Text.trimmed (String.ofList base)
  match h : typedefs[name]? with
  | none => (base, suffix)
  | some target =>
    have := Table.size_erase_lt (Table.mem_of_getElem? h)
    let (base', inner) := splitSuffix (Text.trim target.toList)
    followTypedefs (typedefs.erase name) base' (inner ++ suffix)
termination_by typedefs.size

/-- The type with all typedefs of its base resolved. Leading qualifiers stay in front. -/
def Declarations.resolveType (d : Declarations) (type : String) : String :=
  let (qualified, suffix) := splitSuffix (Text.trim type.toList)
  let (qualifiers, base) := splitQualifiers qualified
  let (base, suffix) := followTypedefs d.typedefs base suffix
  String.ofList (qualifiers ++ base ++ suffix)

end TestSynth
