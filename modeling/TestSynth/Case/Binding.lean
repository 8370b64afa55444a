import TestSynth.Case.Tables
import TestSynth.TypeResolution
import TestSynth.Value.Parser

/-!
# Binding values

`Value.bind` gives the expression that a value denotes and lets the tables learn from it, innermost
layer first: a definition registers its symbol, an element records how far its base was indexed, and
an element of a buffer whose type is void-like tells what the buffer stores.

A value that refers to a parameter is bound after that parameter, whatever the order of the table.
The parameters that are still `pending` become fewer with every reference followed, so cycles end: a
reference back to a parameter that is just being bound stays a reference without a slot.

Values are read before they are bound, and a text that is broken further on still has the effects of
the part that was complete. So the tables are part of the answer also when binding fails.
-/

namespace TestSynth

/-- What a value denotes. -/
structure Bound where
  expr : Expr
  /-- The symbol whose value this is. -/
  symbol : Option String := none
  /-- The storage that the expression addresses, if it is known. -/
  slot : Option Slot := none
  deriving DecidableEq, Repr

namespace Declarations

variable (d : Declarations)

/-- The type of a bound value: that of its symbol, or of the global variable that it names. -/
def typeOf? (t : Tables) (b : Bound) : Option String :=
  (b.symbol.bind fun symbol => t.types[symbol]?).or (b.expr.name?.bind d.variableType?)

/-- The type of a field of a record. -/
def fieldType? (record field : String) : Option String :=
  let (base, _) := TypeSpelling.splitSuffix (d.resolveType record).toList
  (d.fields? (String.ofList base)).bind fun fields =>
    (fields.find? (·.name == field)).map (·.type)

/-- The type resolves to a pointer. -/
def isPointerType (type : String) : Bool := isPointer (d.resolveType type)

/-- The fields taken from an expression one after the other. The first link is given; each further
one follows from the type of the field before it. -/
def takeFields (expr : Expr) (viaPointer : Bool) (record : Option String) : List String → Expr
  | [] => expr
  | field :: fields =>
    let type := record.bind fun record => d.fieldType? record field
    takeFields (.field expr field viaPointer) (type.any d.isPointerType) type fields

end Declarations

/-- The number of elements that a buffer has if this index is valid. It is counted up to the
greatest index, in 64 bits. -/
def sizeForIndex (index : Int) : Nat := (min (index + 1) Index.greatest).toNat

namespace Value

variable (d : Declarations)

/-- The element of a bound value, and what the tables learn from it. -/
def bindElement (b : Bound) (index : Int) (type : String) (t : Tables) : Bound × Tables :=
  let (base, t) :=
    if (d.typeOf? t b).any fun declared => isVoidLike (d.resolveType declared) then
      let narrowed := type ++ " *"
      let types := b.symbol.elim t.types fun symbol => t.types.insert symbol narrowed
      (Expr.cast narrowed b.expr, { t with types })
    else (b.expr, t)
  match b.slot with
  | some slot =>
    (⟨.index base index, none, some slot.element⟩, t.recordSize slot (sizeForIndex index))
  | none => (⟨.index base index, none, none⟩, t)

/-- What a value denotes, and the tables after it. -/
def bind : Value → Tables → Bound × Tables
  | atom text, t => (⟨.ident text, none, none⟩, t)
  | reference symbol text, t => (⟨.ident text, some symbol, t.slots[symbol]?⟩, t)
  | element base index type fields, t =>
    let (b, t) := base.bind t
    let (b, t) := bindElement d b index type t
    if fields.isEmpty then (b, t)
    else (⟨d.takeFields b.expr (type.toList.contains '*') (some type) fields, none, none⟩, t)
  | region inner fields, t =>
    let (b, t) := inner.bind t
    if fields.isEmpty then (b, t)
    else
      let declared := d.typeOf? t b
      (⟨d.takeFields b.expr (declared.any d.isPointerType) declared fields, none, none⟩, t)
  | definition name type inner source, t =>
    let (b, t) := inner.bind t
    let slot := b.slot.getD (.ofRoot name)
    let t := t.register name source b.expr (some (d.resolveType type)) slot
    (⟨b.expr, some name, t.slots[name]?⟩, t)

end Value

/-- The outcome of reading against tables: they count also when it fails. -/
abbrev Outcome (α : Type) := Except ParseError α × Tables

namespace Declarations

variable (d : Declarations)

/-- Binds a text that was read, or the part of it that was complete, after what it refers to. -/
def bindReading (resolve : String → Tables → Outcome Unit) (reading : Except Value.Failure Value)
    (t : Tables) : Outcome Bound :=
  match reading with
  | .error ⟨none, e⟩ => (.error e, t)
  | .error ⟨some v, e⟩ =>
    match v.referent?.elim (.ok (), t) fun symbol => resolve symbol t with
    | (.error e', t) => (.error e', t)
    | (.ok (), t) => (.error e, (v.bind d t).2)
  | .ok v =>
    match v.referent?.elim (.ok (), t) fun symbol => resolve symbol t with
    | (.error e', t) => (.error e', t)
    | (.ok (), t) =>
      let (b, t) := v.bind d t
      (.ok b, t)

/-- Registers the parameter `name` with its value `text` that was bound to `b`. A parameter without
a type takes that of the symbol it is bound to. -/
def registerParameter (name text : String) (b : Bound) (t : Tables) : Tables :=
  let type? := if t.types.contains name then none else b.symbol.bind fun symbol => t.types[symbol]?
  t.register name text b.expr type? (b.slot.getD (.ofRoot name))

/-- Binds and registers the parameter `name`, if it is `pending` and not registered yet. -/
def resolve (limit : Nat) (pending : List String) (name : String) (t : Tables) : Outcome Unit :=
  if h : name ∈ pending then
    match t.isRegistered name, t.parameters[name]? with
    | false, some text =>
      have : (pending.erase name).length < pending.length := by
        have := List.length_pos_of_mem h
        rw [List.length_erase_of_mem h]
        omega
      match d.bindReading (resolve limit (pending.erase name)) (Value.parse limit text) t with
      | (.error e, t) => (.error e, t)
      | (.ok b, t) => (.ok (), registerParameter name text b t)
    | _, _ => (.ok (), t)
  else (.ok (), t)
termination_by pending.length

/-- Reads a text as a value, nested at most `limit` deep, and binds it. -/
def bindText (limit : Nat) (text : String) (t : Tables) : Outcome Bound :=
  d.bindReading (d.resolve limit t.parameters.keys) (Value.parse limit text) t

/-- A parameter whose value has structure of its own. -/
def isCompound (text : String) : Bool := text.toList.contains '{' || text.toList.contains '<'

/-- Resolves some parameters one after the other, up to the first failure. -/
def resolveEach : List String → Tables → Outcome Unit
  | [], t => (.ok (), t)
  | name :: names, t =>
    match d.resolve Value.defaultLimit t.parameters.keys name t with
    | (.error e, t) => (.error e, t)
    | (.ok (), t) => resolveEach names t

/-- Resolves all parameters: first those with plain values, then the compound ones. -/
def resolveParameters (t : Tables) : Outcome Unit :=
  let (compound, plain) := t.parameters.toList.partition fun (_, text) => isCompound text
  d.resolveEach ((plain ++ compound).map Prod.fst) t

end Declarations

end TestSynth
