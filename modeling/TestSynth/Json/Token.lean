import TestSynth.Decimal

/-!
# Tokens of JSON

A JSON text is punctuation, strings, numbers and three literals, with blanks between them. A string
may hold an escape that names no character, half of a surrogate pair; such a string is a token but
has no text.
-/

namespace TestSynth.Json

/-- A token of JSON. -/
inductive Token where
  | openBrace
  | closeBrace
  | openBracket
  | closeBracket
  | comma
  | colon
  | null
  | bool (value : Bool)
  | number (value : Decimal)
  /-- A string, unless one of its escapes names no character. -/
  | string (text : Option String)
  deriving DecidableEq, Repr

/-! ### Strings -/

/-- A part of a string: a character, or a 16-bit unit given by an escape. -/
inductive Part where
  | char (c : Char)
  | unit (n : Nat)
  deriving DecidableEq, Repr

/-- The value of a hexadecimal digit. -/
def hexDigit? (c : Char) : Option Nat :=
  if '0' ≤ c && c ≤ '9' then some (c.toNat - '0'.toNat)
  else if 'a' ≤ c && c ≤ 'f' then some (c.toNat - 'a'.toNat + 10)
  else if 'A' ≤ c && c ≤ 'F' then some (c.toNat - 'A'.toNat + 10)
  else none

/-- The 16-bit unit that four hexadecimal digits write. -/
def unit? (p q r s : Char) : Option Nat := do
  return (((← hexDigit? p) * 16 + (← hexDigit? q)) * 16 + (← hexDigit? r)) * 16 + (← hexDigit? s)

/-- The character that a letter behind a backslash stands for. -/
def escape? : Char → Option Char
  | '"' => some '"'
  | '\\' => some '\\'
  | '/' => some '/'
  | 'b' => some '\x08'
  | 'f' => some '\x0c'
  | 'n' => some '\n'
  | 'r' => some '\r'
  | 't' => some '\t'
  | _ => none

/-- The parts of a string behind its opening quote, and what follows the closing quote. -/
def parts : List Char → Option (List Part × List Char)
  | [] => none
  | '"' :: s => some ([], s)
  | '\\' :: 'u' :: p :: q :: r :: t :: s => do
    let n ← unit? p q r t
    let (ps, rest) ← parts s
    return (.unit n :: ps, rest)
  | '\\' :: c :: s => do
    let e ← escape? c
    let (ps, rest) ← parts s
    return (.char e :: ps, rest)
  | c :: s => do
    if c.toNat < 0x20 then none
    let (ps, rest) ← parts s
    return (.char c :: ps, rest)

/-- The text of a string. Two units are one character if they are the halves of a surrogate pair; a
half alone is none. -/
def decode : List Part → Option (List Char)
  | [] => some []
  | .char c :: ps => (decode ps).map (c :: ·)
  | .unit n :: .unit m :: ps =>
    if 0xD800 ≤ n && n < 0xDC00 then
      if 0xDC00 ≤ m && m < 0xE000 then
        (decode ps).map (Char.ofNat (0x10000 + (n - 0xD800) * 0x400 + (m - 0xDC00)) :: ·)
      else none
    else if 0xDC00 ≤ n && n < 0xE000 then none
    else (decode (.unit m :: ps)).map (Char.ofNat n :: ·)
  | .unit n :: ps =>
    if 0xD800 ≤ n && n < 0xE000 then none else (decode ps).map (Char.ofNat n :: ·)

/-! ### Numbers -/

/-- A run of digits that is not empty, and what follows it. -/
def digits? (s : List Char) : Option (List Char × List Char) :=
  match s.takeWhile Char.isDigit with
  | [] => none
  | ds => some (ds, s.dropWhile Char.isDigit)

/-- The digits behind a point, if there is one. -/
def fraction? : List Char → Option (List Char × List Char)
  | '.' :: s => digits? s
  | s => some ([], s)

/-- The exponent of ten behind its mark, if there is one. -/
def exponent? (s : List Char) : Option (Int × List Char) :=
  match s with
  | c :: s' =>
    if c == 'e' || c == 'E' then
      match s' with
      | '-' :: s'' => (digits? s'').map fun (ds, rest) => (-(Decimal.ofDigits ds : Int), rest)
      | '+' :: s'' => (digits? s'').map fun (ds, rest) => ((Decimal.ofDigits ds : Int), rest)
      | s'' => (digits? s'').map fun (ds, rest) => ((Decimal.ofDigits ds : Int), rest)
    else some (0, s)
  | [] => some (0, [])

/-- A number without its sign, and what follows it. A leading zero stands alone. Of the digits only
those that fit into 64 bits are kept. -/
def unsigned? (s : List Char) : Option (Decimal × List Char) := do
  let (whole, s) ←
    match s with
    | '0' :: s => some (['0'], s)
    | s => digits? s
  let (fraction, s) ← fraction? s
  let (exponent, s) ← exponent? s
  return (.ofLeading whole fraction exponent, s)

/-! ### Texts -/

/-- A character that may stand between tokens. -/
def isBlank (c : Char) : Bool := c == ' ' || c == '\t' || c == '\n' || c == '\r'

/-- The token at the front of a text that begins with none of the blanks. -/
def scan? : List Char → Option (Token × List Char)
  | '{' :: s => some (.openBrace, s)
  | '}' :: s => some (.closeBrace, s)
  | '[' :: s => some (.openBracket, s)
  | ']' :: s => some (.closeBracket, s)
  | ',' :: s => some (.comma, s)
  | ':' :: s => some (.colon, s)
  | '"' :: s => (parts s).map fun (ps, rest) => (.string ((decode ps).map String.ofList), rest)
  | 'n' :: 'u' :: 'l' :: 'l' :: s => some (.null, s)
  | 't' :: 'r' :: 'u' :: 'e' :: s => some (.bool true, s)
  | 'f' :: 'a' :: 'l' :: 's' :: 'e' :: s => some (.bool false, s)
  | '-' :: s => (unsigned? s).map fun (n, rest) => (.number n, rest)
  | s => (unsigned? s).map fun (n, rest) => (.number n, rest)

/-- The tokens of a text, at most `count` of them. -/
def tokensUpTo : (count : Nat) → List Char → Option (List Token)
  | count, s =>
    match s.dropWhile isBlank with
    | [] => some []
    | s =>
      match count, scan? s with
      | count + 1, some (token, rest) => (tokensUpTo count rest).map (token :: ·)
      | _, _ => none

/-- The tokens of a text: a token takes at least one character, so there are no more than those. -/
def tokens (s : List Char) : Option (List Token) := tokensUpTo s.length s

end TestSynth.Json
