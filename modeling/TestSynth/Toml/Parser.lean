import TestSynth.Toml.Scalar
import TestSynth.Toml.Text

/-!
# Reading TOML

A document is read into statements, one to a line, and the statements are put together one after the
other. `Toml.parse` gives the entries of the document.

The bounds on the number of steps are never reached: every step but the last takes a character.
-/

namespace TestSynth.Toml

/-- A character of a value that is neither quoted nor bracketed. -/
def isScalarChar (c : Char) : Bool :=
  c.isAlphanum || c == '_' || c == '+' || c == '-' || c == '.' || c == ':'

/-- A number, a boolean or a date at the front of a text, and what follows it. A date and a time may
have a space between them. -/
def readScalar (s : List Char) : Option (Value × List Char) :=
  let run := s.takeWhile isScalarChar
  let rest := s.dropWhile isScalarChar
  match rest with
  | ' ' :: behind =>
    if isDate run && isOffsetTime (behind.takeWhile isScalarChar) then
      some (.date, behind.dropWhile isScalarChar)
    else (scalar? run).map (·, rest)
  | _ => (scalar? run).map (·, rest)

/-- What follows a comment, if there is one at the front of a text. -/
def skipComment : List Char → List Char
  | '#' :: s => s.dropWhile isTextChar
  | s => s

/-- What follows the blanks, newlines and comments at the front of a text. -/
def skipBlank : (steps : Nat) → List Char → List Char
  | 0, s => s
  | steps + 1, s =>
    let s := s.dropWhile isSpace
    match afterNewline? (skipComment s) with
    | some rest => skipBlank steps rest
    | none => s

mutual

/-- A value at the front of a text, and what follows it. `levels` bounds how deep it is nested. -/
def readValue : (steps levels : Nat) → List Char → Option (Value × List Char)
  | 0, _, _ => none
  | steps + 1, levels, s =>
    match levels, s with
    | 0, '[' :: _ | 0, '{' :: _ => none
    | levels + 1, '[' :: s =>
      (readItems steps levels s).map fun (items, rest) => (.array items, rest)
    | levels + 1, '{' :: s =>
      match s.dropWhile isSpace with
      | '}' :: rest => some (.table .braces [], rest)
      | s => (readMembers steps levels s []).map fun (es, rest) => (.table .braces es, rest)
    | _, '"' :: _ | _, '\'' :: _ =>
      (string? s).map fun (text, rest) => (.string (String.ofList text), rest)
    | _, s => readScalar s

/-- The items of an array up to its end, and what follows it. -/
def readItems : (steps levels : Nat) → List Char → Option (List Value × List Char)
  | 0, _, _ => none
  | steps + 1, levels, s =>
    match skipBlank s.length s with
    | ']' :: rest => some ([], rest)
    | s => do
      let (item, s) ← readValue steps levels s
      match skipBlank s.length s with
      | ',' :: s => do
        let (items, rest) ← readItems steps levels s
        return (item :: items, rest)
      | ']' :: rest => return ([item], rest)
      | _ => none

/-- The members of a table between braces up to its end, after those read before, and what follows
it. -/
def readMembers : (steps levels : Nat) → List Char → Entries → Option (Entries × List Char)
  | 0, _, _, _ => none
  | steps + 1, levels, s, es => do
    let (path, s) ← path? s
    let '=' :: s := s | none
    let (value, s) ← readValue steps levels (s.dropWhile isSpace)
    let es ← Entries.add path.dropLast (← path.getLast?) value .braces es
    match s.dropWhile isSpace with
    | ',' :: s => readMembers steps levels s es
    | '}' :: rest => return (es, rest)
    | _ => none

end

/-- What follows the end of a line: blanks, a comment and a newline, or the end of the text. -/
def afterLine? (s : List Char) : Option (List Char) :=
  match skipComment (s.dropWhile isSpace) with
  | [] => some []
  | s => afterNewline? s

/-- The path of a header and what follows the brackets that close it. -/
def readHeader (closing s : List Char) : Option (List String × List Char) := do
  let (path, s) ← path? s
  if s.take closing.length = closing then some (path, s.drop closing.length) else none

/-- The statement at the front of a line and what follows it. -/
def readStatement (s : List Char) : Option (Statement × List Char) :=
  match s with
  | '[' :: '[' :: s =>
    (readHeader "]]".toList s).map fun (path, rest) => (.repeated path, rest)
  | '[' :: s => (readHeader "]".toList s).map fun (path, rest) => (.header path, rest)
  | s => do
    let (path, s) ← path? s
    let '=' :: s := s | none
    let (value, rest) ← readValue (2 * s.length + 2) (depthLimit - 1) (s.dropWhile isSpace)
    return (.entry path.dropLast (← path.getLast?) value, rest)

/-- The statements of a text. -/
def readStatements : (steps : Nat) → List Char → Option (List Statement)
  | 0, s => if s.isEmpty then some [] else none
  | steps + 1, s =>
    match s.dropWhile isSpace with
    | [] => some []
    | s =>
      match afterNewline? (skipComment s) with
      | some rest => readStatements steps rest
      | none =>
        if (skipComment s).isEmpty then some []
        else do
          let (statement, s) ← readStatement s
          let statements ← readStatements steps (← afterLine? s)
          return statement :: statements

/-- The entries of a document. A byte order mark in front of it is skipped. -/
def parse (source : String) : Option Entries := do
  let s :=
    match source.toList with
    | '\ufeff' :: s => s
    | s => s
  let doc ← (← readStatements (s.length + 1) s).foldlM Document.step {}
  return doc.entries

end TestSynth.Toml
