/-!
# Paths

A path is kept as it is spelled. Two spellings name the same path if their components agree:
repeated slashes, dots behind a slash and a slash at the end say nothing, while `..` and a dot at
the front do.
-/

namespace TestSynth

/-- A path as it is spelled. -/
structure Path where
  text : String
  deriving DecidableEq, Repr

/-- A component of a path. -/
inductive Path.Component where
  | root
  | here
  | up
  | name (text : String)
  deriving DecidableEq, Repr

namespace Path

/-- The path begins at the root. -/
def isAbsolute (p : Path) : Bool := p.text.toList.head? == some '/'

/-- The parts between slashes. -/
def parts : List Char → List (List Char)
  | [] => [[]]
  | c :: s =>
    match parts s with
    | [] => [[c]]
    | p :: ps => if c = '/' then [] :: p :: ps else (c :: p) :: ps

/-- The component that a part stands for, unless it says nothing. -/
def component? (part : List Char) : Option Component :=
  if part = [] || part = ['.'] then none
  else if part = ['.', '.'] then some .up
  else some (.name (String.ofList part))

/-- The components of a path. -/
def components (p : Path) : List Component :=
  let ps := parts p.text.toList
  let front : List Component :=
    match ps with
    | [] :: _ :: _ => [.root]
    | ['.'] :: _ => [.here]
    | _ => []
  front ++ ps.filterMap component?

/-- The two spellings name the same path. -/
def agree (p q : Path) : Bool := p.components == q.components

/-- A path below another one. An absolute path stays as it is. -/
def join (p q : Path) : Path :=
  if q.isAbsolute || p.text.isEmpty then q
  else if p.text.toList.getLast? == some '/' then ⟨p.text ++ q.text⟩
  else ⟨p.text ++ "/" ++ q.text⟩

/-- A reversed path without what says nothing at its end. -/
def dropIdle : List Char → List Char
  | '/' :: c :: r => dropIdle (c :: r)
  | '.' :: '/' :: r => dropIdle ('/' :: r)
  | r => r

/-- The last component, if it is a name. -/
def fileName? (p : Path) : Option String :=
  match p.components.getLast? with
  | some (.name text) => some text
  | _ => none

/-- The path without its last component, if it has one besides the root. -/
def parent? (p : Path) : Option Path :=
  match dropIdle p.text.toList.reverse with
  | [] | ['/'] => none
  | r => some ⟨String.ofList (dropIdle (r.dropWhile (· != '/'))).reverse⟩

end Path

end TestSynth
