/-!
# Strings and keys of TOML

Basic strings know escapes, literal strings do not. Either kind may go over several lines between
three quotes; a newline right behind the opening quotes is dropped, and up to two quotes may stand
before the closing ones. A newline is a line feed, with or without a carriage return in front of it,
and always counts as a line feed.
-/

namespace TestSynth.Toml

/-- A character that may stand in comments and strings: no control character but the tab. -/
def isTextChar (c : Char) : Bool := c == '\t' || (0x20 ≤ c.toNat && c.toNat != 0x7F)

/-- A blank within a line. -/
def isSpace (c : Char) : Bool := c == ' ' || c == '\t'

/-- What follows a newline. -/
def afterNewline? : List Char → Option (List Char)
  | '\n' :: s => some s
  | '\r' :: '\n' :: s => some s
  | _ => none

/-- The value of a hexadecimal digit. -/
def hexDigit? (c : Char) : Option Nat :=
  if c.isDigit then some (c.toNat - '0'.toNat)
  else if 'a' ≤ c && c ≤ 'f' then some (c.toNat - 'a'.toNat + 10)
  else if 'A' ≤ c && c ≤ 'F' then some (c.toNat - 'A'.toNat + 10)
  else none

/-- The character whose code point some hexadecimal digits write. -/
def hexChar? (ds : List Char) : Option Char := do
  let n ← ds.foldlM (fun n d => return 16 * n + (← hexDigit? d)) 0
  if n < 0xD800 || (0xE000 ≤ n && n < 0x110000) then some (Char.ofNat n) else none

/-- The character that a letter behind a backslash stands for. -/
def escape? : Char → Option Char
  | 'b' => some '\x08'
  | 't' => some '\t'
  | 'n' => some '\n'
  | 'f' => some '\x0c'
  | 'r' => some '\r'
  | '"' => some '"'
  | '\\' => some '\\'
  | _ => none

/-- The character that an escape behind its backslash stands for, and what follows it. -/
def escaped? : List Char → Option (Char × List Char)
  | 'u' :: a :: b :: c :: d :: s => (hexChar? [a, b, c, d]).map (·, s)
  | 'U' :: a :: b :: c :: d :: e :: f :: g :: h :: s =>
    (hexChar? [a, b, c, d, e, f, g, h]).map (·, s)
  | c :: s => (escape? c).map (·, s)
  | [] => none

/-- A text and what follows it. -/
abbrev Read := Option (List Char × List Char)

/-- Puts a character in front of the text. -/
def Read.cons (c : Char) (r : Read) : Read := r.map fun (text, rest) => (c :: text, rest)

/-- A basic string behind its opening quote. `steps` bounds the number of characters. -/
def basic : (steps : Nat) → List Char → Read
  | steps + 1, c :: s =>
    if c = '"' then some ([], s)
    else if c = '\\' then (escaped? s).bind fun (e, rest) => (basic steps rest).cons e
    else if isTextChar c then (basic steps s).cons c
    else none
  | _, _ => none

/-- A literal string behind its opening quote. -/
def literal : List Char → Read
  | [] => none
  | c :: s => if c = '\'' then some ([], s) else if isTextChar c then (literal s).cons c else none

/-- The text that ends in the three quotes at the front of some quotes, and what follows: quotes
before the last three belong to the text. -/
def closeLines? (quote : Char) (s : List Char) : Read :=
  let run := ((s.takeWhile (· == quote)).take 5).length
  if run < 3 then none else some (List.replicate (run - 3) quote, s.drop run)

/-- What follows a backslash at the end of a line: blanks, a newline and more of both
are skipped. -/
def afterLineEnd? (s : List Char) : Option (List Char) :=
  (afterNewline? (s.dropWhile isSpace)).map skip
where
  /-- The text without the blanks and newlines at its front. -/
  skip : List Char → List Char
    | '\r' :: '\n' :: s => skip s
    | c :: s => if isSpace c || c == '\n' then skip s else c :: s
    | [] => []

/-- A string over several lines behind its opening quotes. `steps` bounds the number
of characters. -/
def lines (quote : Char) : (steps : Nat) → List Char → Read
  | steps + 1, c :: s =>
    if c = quote then
      (closeLines? quote (c :: s)).or ((lines quote steps s).cons c)
    else if c = '\\' && quote = '"' then
      match afterLineEnd? s with
      | some rest => lines quote steps rest
      | none => (escaped? s).bind fun (e, rest) => (lines quote steps rest).cons e
    else
      match afterNewline? (c :: s) with
      | some rest => (lines quote steps rest).cons '\n'
      | none => if isTextChar c then (lines quote steps s).cons c else none
  | _, _ => none

/-- A string with its quotes at the front of a text, and what follows it. -/
def string? : List Char → Read
  | '"' :: '"' :: '"' :: s => lines '"' (s.length + 1) ((afterNewline? s).getD s)
  | '"' :: s => basic (s.length + 1) s
  | '\'' :: '\'' :: '\'' :: s => lines '\'' (s.length + 1) ((afterNewline? s).getD s)
  | '\'' :: s => literal s
  | _ => none

/-- A character of a key without quotes. -/
def isKeyChar (c : Char) : Bool := c.isAlphanum || c == '_' || c == '-'

/-- A key without dots at the front of a text, and what follows it. -/
def key? (s : List Char) : Read :=
  match s with
  | '"' :: s => basic (s.length + 1) s
  | '\'' :: s => literal s
  | s =>
    match s.takeWhile isKeyChar with
    | [] => none
    | k => some (k, s.dropWhile isKeyChar)

/-- Keys have fewer parts than this, and brackets and braces fewer levels. -/
def depthLimit : Nat := 80

/-- The parts of a key with dots at the front of a text, and what follows it and the blanks behind
it. `steps` bounds the number of parts. -/
def parts? : (steps : Nat) → List Char → Option (List String × List Char)
  | 0, _ => none
  | steps + 1, s => do
    let (k, s) ← key? (s.dropWhile isSpace)
    match s.dropWhile isSpace with
    | '.' :: s => do
      let (ks, rest) ← parts? steps s
      return (String.ofList k :: ks, rest)
    | rest => return ([String.ofList k], rest)

/-- A key with dots at the front of a text, and what follows it and the blanks behind it. -/
def path? (s : List Char) : Option (List String × List Char) :=
  (parts? s.length s).filter fun (path, _) => path.length < depthLimit

end TestSynth.Toml
