import TestSynth.Json.Basic
import TestSynth.Table

/-!
# Records in JSON

How typed values are taken from JSON. A list is an array and a table is an object, of whose members
with one name the last counts. A record is an object whose fields stand once each and whose other
members are ignored; or it is an array of its fields in their order, without any others, where
fields may be missing at the end.
-/

namespace TestSynth.Json

/-- A text. -/
def text? : Json → Option String
  | string text => text
  | _ => none

/-- A list. -/
def list? {α : Type} (item : Json → Option α) : Json → Option (List α)
  | array items => items.mapM item
  | _ => none

/-- A table. -/
def table? {α : Type} (value : Json → Option α) : Json → Option (Table α)
  | object members => members.foldlM (fun t (name, v) => return t.insert (← name) (← value v)) ∅
  | _ => none

/-- The value of a field among the members of a record; it must not stand twice. -/
def member? (members : List (Option String × Json)) (field : String) : Option (Option Json) :=
  match members.filter (·.1 == some field) with
  | [] => some none
  | [(_, v)] => some (some v)
  | _ => none

/-- The values of the fields of a record, in their order; a field may be missing. -/
def fields? (names : List String) : Json → Option (List (Option Json))
  | object members =>
    if members.all (·.1.isSome) then names.mapM (member? members) else none
  | array items =>
    if items.length ≤ names.length then
      some (items.map some ++ List.replicate (names.length - items.length) none)
    else none
  | _ => none

/-- A field that must be present. -/
def required? {α : Type} (value : Json → Option α) (field : Option Json) : Option α :=
  field.bind value

/-- A field that has a default. -/
def defaulted? {α : Type} (default : α) (value : Json → Option α) : Option Json → Option α
  | none => some default
  | some v => value v

/-- A field that may be null. -/
def nullable? {α : Type} (value : Json → Option α) : Json → Option (Option α)
  | null => some none
  | v => (value v).map some

end TestSynth.Json
