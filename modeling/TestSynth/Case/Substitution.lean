import TestSynth.Case.Intake
import TestSynth.Case.Tables

/-!
# Substitution of references

An expression may refer to other symbols by name. `Tables.substituted` replaces each name by the
expression of the symbol, again and again, as often as there are symbols: enough for every chain of
references, and an end to those that go in circles.
-/

namespace TestSynth

/-- The symbol that a name refers to: a conjured symbol may stand with its payload in braces. -/
def referentOf (name : String) : String :=
  if conjuredMark.toList.isPrefixOf name.toList then
    String.ofList (name.toList.takeWhile (· != '{'))
  else name

/-- The expression with its name replaced, up to `steps` times. A symbol that is bound to its own
name stays. -/
def Expr.expand (exprs : Table Expr) : (steps : Nat) → Expr → Expr
  | 0, e => e
  | steps + 1, e =>
    e.mapNames fun name =>
      match exprs[referentOf name]? with
      | none => none
      | some bound =>
        if bound.name? = some name then none else some (bound.expand exprs steps)

/-- How often names are replaced one inside the other: as often as there are symbols. -/
def Tables.budget (t : Tables) : Nat := t.exprs.size

/-- The expressions of all registered symbols, with references replaced. -/
def Tables.substituted (t : Tables) : Table Expr :=
  t.exprs.map fun _ e => e.expand t.exprs t.budget

end TestSynth
