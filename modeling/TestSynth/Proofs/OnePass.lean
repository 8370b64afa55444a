import TestSynth.Case.Binding
import TestSynth.Proofs.Slices

/-!
# Reading and binding in one pass

A text is read and bound at the same time by a cursor that goes over its lexemes.  The cursor, the
number of values that are being read and the tables are one state, and it counts also when the
reading fails.  Texts are cut out of the source by byte offsets.

What could go wrong on the way is checked: a group may be closed that is not open, a slice may not
be there, and values may be nested deeper than there are calls for.  Then the reading halts without
an error that it could report.  `TestSynth.Proofs.CursorSafety` shows that this never happens and
that the answers are those of `Declarations.bindText`.

* `OnePass.State`, `OnePass.Event` : the state of a reading, and what is noted of its steps.
* `OnePass.expr` : reads and binds one value.
* `OnePass.parse`, `OnePass.resolve` : reads and binds a whole text, and the value of a parameter.
-/

namespace TestSynth

/-- The number of open groups behind a token.  There is none if a group is closed that is not
open. -/
def Token.nest? (t : Token) (nesting : Nat) : Option Nat :=
  if t.opensGroup then some (nesting + 1)
  else if t.closesGroup then (if nesting = 0 then none else some (nesting - 1))
  else some nesting

namespace OnePass

open Value (Awaited AtomState)

/-! ### States and actions -/

/-- What happens on the way. -/
inductive Event where
  /-- The cursor passes the lexeme with the given index. -/
  | passed (index : Nat)
  /-- A group is closed where `nesting` groups are open. -/
  | closed (nesting : Nat)
  /-- A text is cut out of the source. -/
  | cut (start stop : Nat)
  deriving DecidableEq, Repr

/-- How far a text has been read. -/
structure State where
  /-- The number of lexemes that have been passed. -/
  cursor : Nat
  /-- The number of values that are being read, one inside the other. -/
  depth : Nat
  /-- What has been learned of the symbols. -/
  tables : Tables
  /-- What has happened so far. -/
  events : List Event

/-- Why a reading ends early. -/
inductive Halt where
  /-- A group is closed that is not open. -/
  | underflow
  /-- There is no slice of the source between the offsets. -/
  | outOfText (start stop : Nat)
  /-- Values are nested deeper than calls are allowed for. -/
  | outOfCalls
  /-- The text is no value. -/
  | failed (e : ParseError)
  deriving DecidableEq, Repr

/-- A part of a reading. -/
abbrev Action (α : Type) := ExceptT Halt (StateM State) α

/-- The text is no value. -/
def fail {α : Type} (e : ParseError) : Action α := throw (.failed e)

/-- What reading answers that cannot halt in another way. -/
def answer {α : Type} (r : Except ParseError α) : Except Halt α := r.mapError .failed

namespace State

variable (source : String) (s : State)

/-- The state at the beginning of a text. -/
def start (t : Tables) : State := ⟨0, 0, t, []⟩

/-- The token `n` places behind the cursor. -/
def token? (n : Nat) : Option Token := (Lexeme.ofText source)[s.cursor + n]?.map Lexeme.token

/-- The number of lexemes that are still to be read. -/
def left : Nat := (Lexeme.ofText source).length - s.cursor

/-- The byte offset of the next lexeme, or the end of the text. -/
def position : Nat := (Lexeme.ofText source)[s.cursor]?.elim source.utf8ByteSize Lexeme.start

/-- The byte offset behind the last lexeme that was passed. -/
def passedEnd : Nat :=
  match s.cursor with
  | 0 => 0
  | i + 1 => (Lexeme.ofText source)[i]?.elim 0 Lexeme.stop

/-- The text of the next lexeme, as error messages give it. -/
def found : String := (Lexeme.ofText source)[s.cursor]?.elim "end of input" Lexeme.text

/-- Notes what happens. -/
def note (e : Event) : State := { s with events := s.events ++ [e] }

/-- Passes a lexeme. -/
def advance : State := { s.note (.passed s.cursor) with cursor := s.cursor + 1 }

/-- Passes a lexeme inside `nesting` groups, one of which it may close. -/
def take (t : Token) (nesting : Nat) : State :=
  (if t.closesGroup then s.note (.closed nesting) else s).advance

end State

variable (source : String)

/-! ### Single steps -/

/-- Passes the next token, if there is one. -/
def next : Action (Option Token) := do
  let t? := (← get).token? source 0
  if t?.isSome then modify State.advance
  return t?

/-- Another token was expected. -/
def unexpected {α : Type} (expected : String) : Action α := do
  let s ← get
  fail (.unexpectedToken (s.position source) expected (s.found source))

/-- Passes the token that has to follow. -/
def expectToken (token : Token) : Action Unit := do
  match (← get).token? source 0 with
  | some t => if t = token then modify State.advance else unexpected source token.kind
  | none => fail .unexpectedEnd

/-- Passes the token that closes or continues the group that `opener` opened at `opened`. -/
def expectClose (token : Token) (opener : String) (opened : Nat) : Action Unit := fun s =>
  match expectToken source token s with
  | (.error (.failed .unexpectedEnd), s) => (.error (.failed (.unclosed opener opened)), s)
  | outcome => outcome

/-- Cuts a text out of the source. -/
def cut (start stop : Nat) : Action String := do
  modify fun s => s.note (.cut start stop)
  match Text.slice? source.toList start stop with
  | some s => return String.ofList s
  | none => throw (.outOfText start stop)

/-- Cuts out the text from `start` to the end of the last lexeme that was passed. -/
def cutFrom (start : Nat) : Action String := do
  let s ← get
  cut source start (max (s.passedEnd source) start)

section Left

variable {source} {s : State} {t : Token}

theorem State.cursor_take (s : State) (t : Token) (nesting : Nat) :
    (s.take t nesting).cursor = s.cursor + 1 := by
  rw [take]
  split <;> rfl

theorem State.cursor_lt (h : s.token? source 0 = some t) :
    s.cursor < (Lexeme.ofText source).length := by
  obtain ⟨l, hl, -⟩ := Option.map_eq_some_iff.1 h
  exact (List.getElem?_eq_some_iff.1 hl).1

theorem State.left_take_lt (h : s.token? source 0 = some t) (nesting : Nat) :
    (s.take t nesting).left source < s.left source := by
  have := cursor_lt h
  rw [left, left, cursor_take]
  omega

end Left

/-- Passes raw text inside `nesting` groups, up to its end. -/
def passRaw (opener : String) (opened : Nat) (awaited : Awaited) (nesting : Nat) (s : State) :
    Except Halt Unit × State :=
  match h : s.token? source 0 with
  | none => (.error (.failed (.unclosed opener opened)), s)
  | some t =>
    if nesting = 0 && awaited.endsAt 0 t then (.ok (), s)
    else
      have := State.left_take_lt h nesting
      match t.nest? nesting with
      | none => (.error .underflow, s.note (.closed nesting))
      | some nesting' => passRaw opener opened awaited nesting' (s.take t nesting)
termination_by s.left source

/-- Passes an atom that has been read up to `st`, up to its end. -/
def passAtom (awaited : Awaited) (st : AtomState) (s : State) : Except Halt AtomState × State :=
  match h : s.token? source 0 with
  | none => (.ok st, s)
  | some t =>
    if st.nesting = 0 && awaited.endsAt st.angles t then (.ok st, s)
    else
      have := State.left_take_lt h st.nesting
      match t.nest? st.nesting with
      | none => (.error .underflow, s.note (.closed st.nesting))
      | some nesting => passAtom awaited { st.push t with nesting } (s.take t st.nesting)
termination_by s.left source

/-- Reads raw text inside the group that `opener` opened at `opened`. -/
def raw (opener : String) (opened : Nat) (awaited : Awaited) : Action String := do
  let start := (← get).position source
  passRaw source opener opened awaited 0
  return Text.trimmed (← cutFrom source start)

/-! ### Values -/

/-- What the tables say of a value, and what they learn from it. -/
def learn (f : Tables → Bound × Tables) : Action Bound := fun s =>
  let (b, tables) := f s.tables
  (.ok b, { s with tables })

/-- How a symbol is resolved before a value that refers to it. -/
abbrev Resolver := String → Tables → Except Halt Unit × Tables

/-- Resolves the symbol that a value refers to. -/
def follow (resolver : Resolver) (symbol : String) : Action Unit := fun s =>
  let (r, tables) := resolver symbol s.tables
  (r, { s with tables })

/-- The symbol that an atom refers to, given its outermost tokens. -/
def symbol? : List Token → Option String
  | [.register symbol] | [.conjured symbol] | [.openBrace, .conjured symbol] => some symbol
  | _ => none

/-- Reads an atom. -/
def atom (resolver : Resolver) (awaited : Awaited) : Action Bound := do
  let start := (← get).position source
  let st ← passAtom source awaited {}
  if 0 < st.nesting then fail (.unclosed "\x7b" start)
  let text := Text.trimmed (← cutFrom source start)
  if text.isEmpty then unexpected source "expression"
  match symbol? st.items with
  | some symbol =>
    follow resolver symbol
    learn fun t => (⟨.ident text, some symbol, t.slots[symbol]?⟩, t)
  | none => return ⟨.ident text, none, none⟩

variable (d : Declarations)

/-- Reads the fields taken from an expression, each by its link. -/
def passFields (expr : Expr) (viaPointer : Bool) (record : Option String) (s : State) :
    Except Halt Expr × State :=
  match h : s.token? source 0 with
  | some .dot =>
    match s.advance.token? source 0 with
    | some (.word field) =>
      have : s.advance.advance.left source < s.left source := by
        have := State.cursor_lt h
        show _ - (s.cursor + 1 + 1) < _ - s.cursor
        omega
      let type := record.bind fun record => d.fieldType? record field
      passFields (.field expr field viaPointer) (type.any d.isPointerType) type s.advance.advance
    | some _ => unexpected source "field name" s.advance.advance
    | none => unexpected source "field name" s.advance
  | _ => (.ok expr, s)
termination_by s.left source

/-- Reads the fields that are taken from a value, if there are any. -/
def fields (b : Bound) (viaPointer : Bool) (record : Option String) : Action Bound := do
  if (← get).token? source 0 = some .dot then
    let e ← passFields source d b.expr viaPointer record
    return ⟨e, none, none⟩
  else return b

/-- Reads the index and the type of an element that was opened at `opened`. -/
def elementTail (opened : Nat) : Action (Int × String) := do
  let opener := Token.elementOpen.spelling
  expectClose source .comma opener opened
  let index ← raw source opener opened .comma
  expectClose source .comma opener opened
  let type ← raw source opener opened .closeBrace
  expectClose source .closeBrace opener opened
  match Index.parse index with
  | .ok index => return (index, type)
  | .error e => fail e

/-- Reads an element. -/
def element (inner : Awaited → Action Bound) : Action Bound := do
  let opened := (← get).position source
  expectToken source .elementOpen
  let b ← inner .comma
  let (index, type) ← elementTail source opened
  let b ← learn (Value.bindElement d b index type)
  fields source d b (type.toList.contains '*') (some type)

/-- Reads a region. -/
def region (inner : Awaited → Action Bound) : Action Bound := do
  let opened := (← get).position source
  expectToken source .regionOpen
  let b ← inner .closeBrace
  expectClose source .closeBrace Token.regionOpen.spelling opened
  let declared := d.typeOf? (← get).tables b
  fields source d b (declared.any d.isPointerType) declared

/-- Reads a definition. -/
def definition (inner : Awaited → Action Bound) : Action Bound := do
  let opened := (← get).position source
  match ← next source with
  | some (.register name) =>
    expectToken source .openAngle
    let type ← raw source "<" opened .comma
    expectClose source .comma "<" opened
    let start := (← get).position source
    let b ← inner .closeAngle
    let text ← cutFrom source start
    expectClose source .closeAngle "<" opened
    learn fun t =>
      let slot := b.slot.getD (.ofRoot name)
      let t := t.register name text b.expr (some (d.resolveType type)) slot
      (⟨b.expr, some name, t.slots[name]?⟩, t)
  | _ => unexpected source "register"

/-- Reads what the next tokens announce. -/
def layer (resolver : Resolver) (inner : Awaited → Action Bound) (awaited : Awaited) :
    Action Bound := do
  let s ← get
  match s.token? source 0 with
  | some .elementOpen => element source d inner
  | some .regionOpen => region source d inner
  | some (.register _) =>
    if s.token? source 1 = some .openAngle then definition source d inner
    else atom source resolver awaited
  | some _ => atom source resolver awaited
  | none => fail .unexpectedEnd

variable (limit : Nat)

/-- Reads a value inside those that are being read, of which there may be `limit`. -/
def nested {α : Type} (value : Action α) : Action α := fun s =>
  if s.depth < limit then
    let (r, s) := value { s with depth := s.depth + 1 }
    (r, { s with depth := s.depth - 1 })
  else fail (.tooDeep s.depth limit) s

/-- Reads one value in at most `calls` calls, one inside the other. -/
def exprWithin (resolver : Resolver) : (calls : Nat) → Awaited → Action Bound
  | 0, _ => throw .outOfCalls
  | calls + 1, awaited =>
    nested limit (layer source d resolver (exprWithin resolver calls) awaited)

/-- Reads one value, with a call for each value that may be nested into it and for one more. -/
def expr (resolver : Resolver) (awaited : Awaited) : Action Bound := fun s =>
  exprWithin source d limit resolver (limit - s.depth + 1) awaited s

/-- Reads a text that is one value. -/
def parse (resolver : Resolver) : Action Bound := do
  let b ← expr source d limit resolver .nothing
  if ((← get).token? source 0).isSome then unexpected source "end of expression"
  return b

/-- Reads and registers the parameter `name`, if it is `pending` and not registered yet. -/
def resolve (pending : List String) : Resolver := fun name t =>
  if h : name ∈ pending then
    match t.isRegistered name, t.parameters[name]? with
    | false, some text =>
      have : (pending.erase name).length < pending.length := by
        have := List.length_pos_of_mem h
        rw [List.length_erase_of_mem h]
        omega
      match parse text d limit (resolve (pending.erase name)) (.start t) with
      | (.error e, s) => (.error e, s.tables)
      | (.ok b, s) => (.ok (), Declarations.registerParameter name text b s.tables)
    | _, _ => (.ok (), t)
  else (.ok (), t)
termination_by pending.length

end OnePass

end TestSynth
