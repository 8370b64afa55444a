import TestSynth.Path

/-!
# Files

What the program asks of the system it runs on. `FileTree` answers from a value: a tree of files,
the directory in which the program runs, and all that was printed. It keeps no reports.
-/

namespace TestSynth

/-- Access to files, and a place to print to. -/
class Files (m : Type → Type) where
  /-- The text of a file, if it can be read. -/
  read? : Path → m (Option String)
  /-- There is something at the path. -/
  isPresent : Path → m Bool
  /-- There is a file at the path. -/
  isFile : Path → m Bool
  /-- There is a directory at the path. -/
  isDirectory : Path → m Bool
  /-- The names in a directory, if it can be listed. -/
  names? : Path → m (Option (List String))
  /-- Makes a directory and those that it lies in, or says why it cannot. -/
  makeDirectories : Path → m (Except String Unit)
  /-- Writes a file and says whether it could. -/
  write : Path → String → m Bool
  /-- Prints a text. -/
  print : String → m Unit
  /-- Tells the user how the run goes, apart from what is printed. -/
  report : String → m Unit

/-- A place in a tree: the names from the root to it, the last first. -/
abbrev Place := List String

/-- What is at a place. -/
inductive Node where
  | file (text : String)
  | directory
  deriving DecidableEq, Repr

/-- Files and directories in their places. The root needs no entry. -/
structure FileTree where
  nodes : List (Place × Node) := []
  /-- Where relative paths begin. -/
  current : Place := []
  printed : String := ""
  deriving Repr

/-- Why a place cannot be reached or used. -/
inductive FileTree.Fault where
  | missing
  | notDirectory
  | present
  | longName
  deriving DecidableEq, Repr

namespace FileTree

/-- The system's own words for a fault. -/
def Fault.message : Fault → String
  | missing => "No such file or directory (os error 2)"
  | notDirectory => "Not a directory (os error 20)"
  | present => "File exists (os error 17)"
  | longName => "File name too long (os error 36)"

/-- The greatest number of bytes in a name. -/
def nameLimit : Nat := 255

/-- The greatest number of bytes in a path. -/
def pathLimit : Nat := 4095

variable (t : FileTree)

/-- What is at a place, if anything. -/
def node? : Place → Option Node
  | [] => some .directory
  | place => t.nodes.lookup place

/-- The tree with something put at a place. -/
def put (place : Place) (node : Node) : FileTree :=
  { t with nodes := (place, node) :: t.nodes.filter (·.1 != place) }

/-- The place that the parts of a path lead to. Every part must be taken from a directory. -/
def walk (place : Place) : List (List Char) → Except Fault Place
  | [] => .ok place
  | part :: parts =>
    match t.node? place with
    | none => .error .missing
    | some (.file _) => .error .notDirectory
    | some .directory =>
      match Path.component? part with
      | none => walk place parts
      | some .up => walk place.tail parts
      | some (.name name) =>
        if nameLimit < name.utf8ByteSize then .error .longName
        else if (t.node? (name :: place)).isSome then walk (name :: place) parts
        else .error .missing
      | some _ => walk place parts

/-- The place that some parts of a path lead to. A path that is too long leads nowhere. -/
def follow (p : Path) (parts : List (List Char)) : Except Fault Place :=
  if pathLimit < p.text.utf8ByteSize then .error .longName
  else t.walk (if p.isAbsolute then [] else t.current) parts

/-- The place of a path, if there is something. -/
def place? (p : Path) : Option Place :=
  if p.text.isEmpty then none else (t.follow p (Path.parts p.text.toList)).toOption

/-- What is at a path, if anything. -/
def at? (p : Path) : Option Node := (t.place? p).bind t.node?

/-- The place at which some parts of a path would put something new: the last part is a name, and
all before it lead to a directory. -/
def newPlace (p : Path) (parts : List (List Char)) : Except Fault Place :=
  match t.follow p parts.dropLast with
  | .error e => .error e
  | .ok place =>
    match t.node? place, parts.getLast?.bind Path.component? with
    | some .directory, some (.name name) =>
      if nameLimit < name.utf8ByteSize then .error .longName else .ok (name :: place)
    | some .directory, _ => .error .present
    | _, _ => .error .notDirectory

/-- The text of a file. -/
def read? (p : Path) : Option String :=
  match t.at? p with
  | some (.file text) => some text
  | _ => none

/-- The names in a directory. -/
def names? (p : Path) : Option (List String) :=
  match t.place? p with
  | some place =>
    match t.node? place with
    | some .directory =>
      some (t.nodes.filterMap fun (other, _) =>
        match other with
        | name :: up => if up = place then some name else none
        | [] => none)
    | _ => none
  | none => none

/-- The tree with a file written, if it can be. -/
def write? (p : Path) (text : String) : Option FileTree :=
  match t.newPlace p (Path.parts p.text.toList) with
  | .error _ => none
  | .ok place => if t.node? place = some .directory then none else some (t.put place (.file text))

/-- The tree with one directory made. -/
def makeDirectory (p : Path) : Except Fault FileTree :=
  let parts := (Path.parts p.text.toList).reverse.dropWhile List.isEmpty
  match t.newPlace p parts.reverse with
  | .error e => .error e
  | .ok place => if (t.node? place).isSome then .error .present else .ok (t.put place .directory)

/-- The tree with a directory made and, where that fails because they are missing, those that it
lies in. `steps` bounds their number. -/
def makeDirectories : (steps : Nat) → FileTree → Path → Except Fault FileTree
  | 0, t, _ => .ok t
  | steps + 1, t, p =>
    if p.text.isEmpty then .ok t
    else
      match t.makeDirectory p with
      | .ok t => .ok t
      | .error .missing =>
        match p.parent? with
        | none => .error .missing
        | some parent =>
          match makeDirectories steps t parent with
          | .error e => .error e
          | .ok t =>
            match t.makeDirectory p with
            | .ok t => .ok t
            | .error e => if t.at? p = some .directory then .ok t else .error e
      | .error e => if t.at? p = some .directory then .ok t else .error e

instance : Files (StateM FileTree) where
  read? p := return (← get).read? p
  isPresent p := return ((← get).at? p).isSome
  isFile p := return ((← get).read? p).isSome
  isDirectory p := return (← get).at? p = some .directory
  names? p := return (← get).names? p
  makeDirectories p := do
    match (← get).makeDirectories (p.components.length + 1) p with
    | .ok t =>
      set t
      return .ok ()
    | .error e => return .error e.message
  write p text := do
    match (← get).write? p text with
    | some t =>
      set t
      return true
    | none => return false
  print text := modify fun t => { t with printed := t.printed ++ text }
  report _ := return ()

/-- The tree with a file or, where the path ends in a slash, a directory, and the directories that
it lies in. -/
def add (path text : String) : FileTree :=
  let place := (Path.parts path.toList).foldl (fun (place : Place) part =>
    match Path.component? part with
    | some (.name name) => name :: place
    | _ => place) t.current
  let isFile := path.toList.getLast? != some '/'
  let t := addParents t (if isFile then place.tail else place)
  if isFile then t.put place (.file text) else t
where
  /-- The tree with the directories from the root to a place. -/
  addParents (t : FileTree) : Place → FileTree
    | [] => t
    | name :: up =>
      let t := addParents t up
      if (t.node? (name :: up)).isSome then t else t.put (name :: up) .directory

end FileTree

end TestSynth
