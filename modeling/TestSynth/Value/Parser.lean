import TestSynth.Text.Blank
import TestSynth.Value.Basic
import TestSynth.Value.Index
import TestSynth.Value.Lexeme

/-!
# Reading values

The language has no keywords but its markers, so the first lexemes decide what is read:

    value      := element | region | definition | atom
    element    := "Element{" value "," INDEX "," TYPE "}" fields
    region     := "SymRegion{" value "}" fields
    definition := reg_$N "<" TYPE "," value ">"
    fields     := ("." WORD)*
    atom       := all text up to the delimiter that ends it

Indices, types and atoms are taken over as text. A closing bracket that was not opened inside such a
text always ends it; a comma or a closing angle bracket ends it where one is awaited.

Whoever reads a text that is broken further on still learns of the value that was complete by then:
a `Failure` carries it along with the error.
-/

namespace TestSynth.Value

/-- Why a text could not be read, and the largest part of it that was read as a value before. -/
structure Failure where
  completed : Option Value
  error : ParseError
  deriving DecidableEq, Repr

/-! ### Raw text -/

/-- The delimiter that is awaited behind a text. -/
inductive Awaited where
  | nothing
  | comma
  | closeAngle
  | closeBrace
  deriving DecidableEq, Repr

/-- The token ends a text that is at its outermost level, inside `angles` angle brackets. -/
def Awaited.endsAt (awaited : Awaited) (angles : Nat) : Token → Bool
  | .closeBrace | .closeParen | .closeBracket => true
  | .comma => awaited == .comma && angles == 0
  | .closeAngle => awaited == .closeAngle && angles == 0
  | _ => false

/-- The lexemes up to the end of a raw text inside `nesting` groups, and the rest. There is none if
the text does not end. -/
def takeRaw (awaited : Awaited) (nesting : Nat) : List Lexeme → Option (List Lexeme × List Lexeme)
  | [] => none
  | l :: ls =>
    if nesting = 0 && awaited.endsAt 0 l.token then some ([], l :: ls)
    else (takeRaw awaited (l.token.nest nesting) ls).map fun (taken, rest) => (l :: taken, rest)

/-- How far an atom has been read. -/
structure AtomState where
  /-- The number of open groups. -/
  nesting : Nat := 0
  /-- The number of open angle brackets. -/
  angles : Nat := 0
  /-- The outermost tokens, the last one first. -/
  items : List Token := []

/-- Reads on by one token. An angle bracket opens only behind a register, which is the last but one
of the outermost tokens at that time. -/
def AtomState.push (st : AtomState) (t : Token) : AtomState :=
  let items := if st.nesting = 0 then t :: st.items else st.items
  { nesting := t.nest st.nesting
    angles :=
      match t, items with
      | .openAngle, _ :: .register _ :: _ => st.angles + 1
      | .closeAngle, _ => st.angles - 1
      | _, _ => st.angles
    items }

/-- The lexemes of an atom, how far it was read, and the rest. -/
def takeAtom (awaited : Awaited) (st : AtomState) :
    List Lexeme → List Lexeme × AtomState × List Lexeme
  | [] => ([], st, [])
  | l :: ls =>
    if st.nesting = 0 && awaited.endsAt st.angles l.token then ([], st, l :: ls)
    else
      let (taken, st', rest) := takeAtom awaited (st.push l.token) ls
      (l :: taken, st', rest)

/-- The text of some lexemes without the blanks at its ends. -/
def rawText (ls : List Lexeme) : String := Text.trimmed (Lexeme.sourceText ls)

/-! ### Single steps

`size` is the length of the text in bytes and the lexemes are those still to be read. -/

/-- Another token was expected. -/
def unexpected (size : Nat) (expected : String) (ls : List Lexeme) : ParseError :=
  .unexpectedToken (Lexeme.position size ls) expected (Lexeme.found ls)

/-- Reads the token that closes or continues the group that `opener` opened at `opened`. -/
def expect (size : Nat) (opener : String) (opened : Nat) (token : Token) :
    List Lexeme → Except ParseError (List Lexeme)
  | [] => .error (.unclosed opener opened)
  | l :: ls => if l.token = token then .ok ls else .error (unexpected size token.kind (l :: ls))

/-- Reads raw text inside the group that `opener` opened at `opened`. -/
def raw (opener : String) (opened : Nat) (awaited : Awaited) (ls : List Lexeme) :
    Except ParseError (String × List Lexeme) :=
  match takeRaw awaited 0 ls with
  | some (taken, rest) => .ok (rawText taken, rest)
  | none => .error (.unclosed opener opened)

/-- Reads the fields behind an element or a region. -/
def fieldNames (size : Nat) : List Lexeme → Except ParseError (List String × List Lexeme)
  | ⟨_, .dot, _⟩ :: ⟨_, .word name, _⟩ :: ls => do
    let (names, rest) ← fieldNames size ls
    return (name :: names, rest)
  | ⟨_, .dot, _⟩ :: ls => .error (unexpected size "field name" ls.tail)
  | ls => .ok ([], ls)

theorem fieldNames_of_not_dot {size : Nat} {ls : List Lexeme}
    (h : ∀ l ∈ ls.head?, l.token ≠ .dot) : fieldNames size ls = .ok ([], ls) := by
  unfold fieldNames
  split
  · exact absurd rfl (h _ rfl)
  · exact absurd rfl (h _ rfl)
  · rfl

/-! ### Values -/

/-- Reads an atom. -/
def atomValue (size : Nat) (awaited : Awaited) (ls : List Lexeme) :
    Except ParseError (Value × List Lexeme) :=
  let (taken, st, rest) := takeAtom awaited {} ls
  let text := rawText taken
  if 0 < st.nesting then .error (.unclosed "\x7b" (Lexeme.position size ls))
  else if text.isEmpty then .error (unexpected size "expression" rest)
  else
    let value :=
      match st.items with
      | [.register symbol] | [.conjured symbol] | [.openBrace, .conjured symbol] =>
        reference symbol text
      | _ => atom text
    .ok (value, rest)

/-- How a value is read whose end is awaited. -/
abbrev Reader := Awaited → List Lexeme → Except Failure (Value × List Lexeme)

/-- Reads the index and the type of an element that was opened at `opened`. -/
def elementTail (size opened : Nat) (ls : List Lexeme) :
    Except ParseError (Int × String × List Lexeme) := do
  let opener := Token.elementOpen.spelling
  let ls ← expect size opener opened .comma ls
  let (index, ls) ← raw opener opened .comma ls
  let ls ← expect size opener opened .comma ls
  let (type, ls) ← raw opener opened .closeBrace ls
  let ls ← expect size opener opened .closeBrace ls
  return (← Index.parse index, type, ls)

/-- Reads what follows the marker of an element. -/
def elementValue (inner : Reader) (size opened : Nat) (ls : List Lexeme) :
    Except Failure (Value × List Lexeme) := do
  let (base, ls) ← inner .comma ls
  let (index, type, ls) ← (elementTail size opened ls).mapError (⟨some base, ·⟩)
  let (fields, ls) ← (fieldNames size ls).mapError (⟨some (element base index type []), ·⟩)
  return (element base index type fields, ls)

/-- Reads what follows the marker of a region. -/
def regionValue (inner : Reader) (size opened : Nat) (ls : List Lexeme) :
    Except Failure (Value × List Lexeme) := do
  let (value, ls) ← inner .closeBrace ls
  let ls ← (expect size Token.regionOpen.spelling opened .closeBrace ls).mapError (⟨some value, ·⟩)
  let (fields, ls) ← (fieldNames size ls).mapError (⟨some value, ·⟩)
  return (region value fields, ls)

/-- Reads what follows the symbol and the angle bracket of a definition. -/
def definitionValue (inner : Reader) (size opened : Nat) (name : String) (ls : List Lexeme) :
    Except Failure (Value × List Lexeme) := do
  let (type, ls) ← (raw "<" opened .comma ls).mapError (⟨none, ·⟩)
  let ls ← (expect size "<" opened .comma ls).mapError (⟨none, ·⟩)
  let (value, rest) ← inner .closeAngle ls
  let source := Lexeme.sourceText (ls.take (ls.length - rest.length))
  let rest ← (expect size "<" opened .closeAngle rest).mapError (⟨some value, ·⟩)
  return (definition name type value source, rest)

/-- Reads one value; `depth` more may be nested into each other, of `limit` in all. -/
def read (size limit : Nat) : Nat → Reader
  | 0, _, _ => .error ⟨none, .tooDeep limit limit⟩
  | depth + 1, awaited, ls =>
    let inner := read size limit depth
    match ls with
    | [] => .error ⟨none, .unexpectedEnd⟩
    | ⟨_, .elementOpen, opened⟩ :: rest => elementValue inner size opened rest
    | ⟨_, .regionOpen, opened⟩ :: rest => regionValue inner size opened rest
    | ⟨_, .register name, opened⟩ :: ⟨_, .openAngle, _⟩ :: rest =>
      definitionValue inner size opened name rest
    | ls => (atomValue size awaited ls).mapError (⟨none, ·⟩)

/-- Reads a text that is one value, nested at most `limit` deep. -/
def parse (limit : Nat) (source : String) : Except Failure Value := do
  let size := source.utf8ByteSize
  let (value, rest) ← read size limit limit .nothing (Lexeme.ofText source)
  match rest with
  | [] => return value
  | rest => .error ⟨some value, unexpected size "end of expression" rest⟩

/-- How deep values may be nested unless another limit is set. -/
def defaultLimit : Nat := 256

end TestSynth.Value
