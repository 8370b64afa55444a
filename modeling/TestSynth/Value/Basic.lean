/-!
# Values

A symbolic value is a chain of layers around an atom: elements, regions and definitions. The atom is
text that is kept as it is; if it is a lone symbol, or a conjured symbol with its payload, it refers
to that symbol.
-/

namespace TestSynth

/-- A symbolic value. -/
inductive Value where
  /-- Text that refers to nothing. -/
  | atom (text : String)
  /-- A symbol, as it is written. -/
  | reference (symbol text : String)
  /-- An element of `base`, of the given type, and the fields taken from it. -/
  | element (base : Value) (index : Int) (type : String) (fields : List String)
  /-- What `inner` denotes, and the fields taken from it. -/
  | region (inner : Value) (fields : List String)
  /-- The definition of the symbol `name` as `inner`, whose text is `source`. -/
  | definition (name type : String) (inner : Value) (source : String)
  deriving DecidableEq, Repr

namespace Value

/-- The symbol that the innermost atom refers to. -/
def referent? : Value → Option String
  | atom _ => none
  | reference symbol _ => some symbol
  | element base .. => base.referent?
  | region inner _ => inner.referent?
  | definition _ _ inner _ => inner.referent?

end Value

end TestSynth
