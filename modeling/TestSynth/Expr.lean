/-!
# Expressions

The C expressions that a symbolic value denotes: a name, an element, a field or a cast. Only a cast
is put into parentheses when something is applied to it.
-/

namespace TestSynth

/-- A C expression. -/
inductive Expr where
  /-- A name or a literal, as it is written. -/
  | ident (name : String)
  /-- `base[index]` -/
  | index (base : Expr) (index : Int)
  /-- `base.field`, or `base->field` through a pointer. -/
  | field (base : Expr) (field : String) (viaPointer : Bool)
  /-- `(type) inner` -/
  | cast (type : String) (inner : Expr)
  deriving DecidableEq, Repr

namespace Expr

/-- An element of another expression. -/
def isIndex : Expr → Bool
  | index .. => true
  | _ => false

/-- A cast. -/
def isCast : Expr → Bool
  | cast .. => true
  | _ => false

/-- The name, if the expression is one. -/
def name? : Expr → Option String
  | ident name => some name
  | _ => none

/-- An operand is written in parentheses if it is a cast. -/
def parenthesize (e : Expr) (text : String) : String :=
  if e.isCast then "(" ++ text ++ ")" else text

/-- The text of an expression in C. -/
def render : Expr → String
  | ident name => name
  | index base i => base.parenthesize base.render ++ "[" ++ toString i ++ "]"
  | field base name viaPointer =>
    base.parenthesize base.render ++ (if viaPointer then "->" else ".") ++ name
  | cast type inner => "(" ++ type ++ ") " ++ inner.parenthesize inner.render

/-- The expression with every name that `f` knows replaced; other names stay. -/
def mapNames (f : String → Option Expr) : Expr → Expr
  | ident name => (f name).getD (ident name)
  | index base i => index (base.mapNames f) i
  | field base name viaPointer => field (base.mapNames f) name viaPointer
  | cast type inner => cast type (inner.mapNames f)

end Expr

end TestSynth
