import TestSynth.Text.Split

/-!
# Statements

The C statements of a test function and how they are laid out: one to a line, a loop with its braces
on lines of their own and its body one level further in.
-/

namespace TestSynth

/-- A C statement. -/
inductive Statement where
  /-- `type name;` -/
  | declare (type name : String)
  /-- `target = value;` -/
  | assign (target value : String)
  /-- `function(arguments);` -/
  | call (function : String) (arguments : List String)
  /-- The counter `counter` runs from 0 and stays below `bound`. -/
  | loop (counter : String) (bound : Nat) (body : List Statement)
  deriving Repr

namespace Statement

/-- A name declared with a type. The spelling of a function pointer has the name inside it. -/
def declarator (type name : String) : String :=
  match Text.splitOnce "(*)".toList type.toList with
  | some (before, rest) => String.ofList before ++ "(*" ++ name ++ ")" ++ String.ofList rest
  | none => type ++ " " ++ name

/-- A line of text, indented by `indent` spaces for each level. -/
def line (indent level : Nat) (text : String) : String :=
  String.ofList (List.replicate (indent * level) ' ') ++ text ++ "\n"

mutual

/-- The lines of a statement. -/
def render (indent level : Nat) : Statement → String
  | declare type name => line indent level (declarator type name ++ ";")
  | assign target value => line indent level (target ++ " = " ++ value ++ ";")
  | call function arguments =>
    line indent level (function ++ "(" ++ String.intercalate ", " arguments ++ ");")
  | loop counter bound body =>
    line indent level ("for (int " ++ counter ++ " = 0; " ++ counter ++ " < " ++ toString bound ++
        "; " ++ counter ++ "++)") ++
      line indent level "\x7b" ++ renderAll indent (level + 1) body ++ line indent level "\x7d"

/-- The lines of some statements. -/
def renderAll (indent level : Nat) : List Statement → String
  | [] => ""
  | s :: rest => render indent level s ++ renderAll indent level rest

end

end Statement

/-- The definition of a function without parameters and result. -/
structure Function where
  name : String
  body : List Statement
  deriving Repr

/-- The lines of a definition. -/
def Function.render (f : Function) (indent : Nat) : String :=
  "void " ++ f.name ++ "()\n\x7b\n" ++ Statement.renderAll indent 1 f.body ++ "\x7d\n"

end TestSynth
