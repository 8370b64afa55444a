/-!
# TOML values

A value of TOML 1.0. Tables remember how they came about, because that decides what may still be
added to them: a table with a header of its own is open to its own lines only, one that is implied
by a longer header may still get a header, one that dotted keys made is open to dotted keys, and one
written between braces is closed.
-/

namespace TestSynth.Toml

/-- How a table came about. -/
inductive Origin where
  /-- It has a header of its own, or is the document. -/
  | header
  /-- It lies on the way to a table with a header. -/
  | implied
  /-- It lies on the way to the last part of a dotted key. -/
  | dotted
  /-- It is written between braces. -/
  | braces
  deriving DecidableEq, Repr

/-- A value. Of floats, booleans and dates nothing but their kind is kept. -/
inductive Value where
  | string (text : String)
  | integer (n : Int)
  | float
  | boolean
  | date
  | array (items : List Value)
  | table (origin : Origin) (entries : List (String × Value))
  /-- The tables of one repeated header, the last first. -/
  | tables (elements : List (List (String × Value)))
  deriving Repr

/-- A table's entries, in the order in which they were made. -/
abbrev Entries := List (String × Value)

namespace Entries

/-- The entry with its key. -/
def set (key : String) (value : Value) (es : Entries) : Entries :=
  if es.any (·.1 == key) then es.map fun e => if e.1 == key then (key, value) else e
  else es ++ [(key, value)]

/-- Changes the table that `path` leads to, or fails. Tables that are missing on the way are made,
as `missing` says. Dotted keys do not lead into a table that has a header. -/
def modify (missing : Origin) (change : Origin → Entries → Option Entries) :
    (path : List String) → Origin → Entries → Option Entries
  | [], origin, es => change origin es
  | key :: path, _, es =>
    match es.lookup key with
    | none => do
      return es ++ [(key, .table missing (← modify missing change path missing []))]
    | some (.table origin inner) =>
      if origin = .braces || (missing = .dotted && origin = .header) then none
      else do return es.set key (.table origin (← modify missing change path origin inner))
    | some (.tables (last :: others)) => do
      return es.set key (.tables ((← modify missing change path .header last) :: others))
    | some _ => none

/-- Adds an entry under a dotted key. It must be new; and a key without dots does not add to a table
that dotted keys made, nor a key with dots to one that they did not make. -/
def add (path : List String) (key : String) (value : Value) (origin : Origin) (es : Entries) :
    Option Entries :=
  modify .dotted (fun origin es =>
    if (origin = .dotted) = path.isEmpty || (es.lookup key).isSome then none
    else some (es ++ [(key, value)])) path origin es

/-- Gives the table at `path` a header. -/
def giveHeader (path : List String) (es : Entries) : Option Entries :=
  match path.getLast? with
  | none => none
  | some key =>
    modify .implied (fun _ es =>
      match es.lookup key with
      | none => some (es.set key (.table .header []))
      | some (.table .implied inner) => some (es.set key (.table .header inner))
      | some _ => none) path.dropLast .header es

/-- Adds a table to those with a repeated header. -/
def appendTable (path : List String) (es : Entries) : Option Entries :=
  match path.getLast? with
  | none => none
  | some key =>
    modify .implied (fun _ es =>
      match es.lookup key with
      | none => some (es.set key (.tables [[]]))
      | some (.tables elements) => some (es.set key (.tables ([] :: elements)))
      | some _ => none) path.dropLast .header es

end Entries

/-- A statement of a document. -/
inductive Statement where
  /-- `[path]` -/
  | header (path : List String)
  /-- `[[path]]` -/
  | repeated (path : List String)
  /-- `path.key = value` -/
  | entry (path : List String) (key : String) (value : Value)
  deriving Repr

/-- A document that is being put together: its entries and the path of the current table. -/
structure Document where
  entries : Entries := []
  current : List String := []
  deriving Repr

/-- The document with one more statement. -/
def Document.step (doc : Document) : Statement → Option Document
  | .header path => do return ⟨← doc.entries.giveHeader path, path⟩
  | .repeated path => do return ⟨← doc.entries.appendTable path, path⟩
  | .entry path key value => do
    let entries ← doc.entries.modify .implied (Entries.add path key value) doc.current .header
    return { doc with entries }

end TestSynth.Toml
