import TestSynth.Toml.Text

/-!
# Quoted texts

A text is written in the first of four styles that shows it with no escape but that of a tab: as a
basic string, as a literal string, and as either of them over several lines. If none does, it is a
basic string with escapes, over several lines if the text has a line feed.
-/

namespace TestSynth.Toml

/-- The style of a string. -/
inductive Style where
  | basic
  | literal
  | basicLines
  | literalLines
  deriving DecidableEq, Repr

/-- The length of the longest run of a character, with `run` of them in front of the text. -/
def longestRun (x : Char) (run : Nat) : List Char → Nat
  | [] => run
  | c :: s => if c = x then longestRun x (run + 1) s else max run (longestRun x 0 s)

namespace Style

/-- The style of a text. A control character other than the tab and the line feed has to be escaped,
so that no style shows the text as it is. -/
def ofText (text : List Char) : Style :=
  let hasLines := text.contains '\n'
  let isPrintable := text.all fun c => c == '\n' || isTextChar c
  let hasBackslash := text.contains '\\'
  let double := longestRun '"' 0 text
  let single := longestRun '\'' 0 text
  if isPrintable && !hasBackslash && double == 0 && !hasLines then basic
  else if isPrintable && single == 0 && !hasLines then literal
  else if isPrintable && !hasBackslash && double ≤ 2 then basicLines
  else if isPrintable && single ≤ 2 then literalLines
  else if hasLines then basicLines
  else basic

/-- The quotes at either end. -/
def delimiter : Style → List Char
  | basic => ['"']
  | literal => ['\'']
  | basicLines => ['"', '"', '"']
  | literalLines => ['\'', '\'', '\'']

/-- How many double quotes may stand in a row without an escape. -/
def quoteLimit : Style → Nat
  | basicLines => 2
  | _ => 0

end Style

/-- A character other than a quote as it stands in a basic string. -/
def escapeChar : Char → List Char
  | '\\' => ['\\', '\\']
  | '\x08' => ['\\', 'b']
  | '\t' => ['\\', 't']
  | '\n' => ['\\', 'n']
  | '\x0c' => ['\\', 'f']
  | '\r' => ['\\', 'r']
  | c =>
    if isTextChar c then [c]
    else
      ['\\', 'u', '0', '0'] ++
        [Nat.digitChar (c.toNat / 16), Nat.digitChar (c.toNat % 16)].map Char.toUpper

/-- A text as it stands in a basic string behind `run` double quotes. -/
def escapeText (style : Style) (run : Nat) : List Char → List Char
  | [] => []
  | c :: s =>
    if c = '"' then
      if run < style.quoteLimit then c :: escapeText style (run + 1) s
      else '\\' :: c :: escapeText style 0 s
    else if c = '\n' && style = .basicLines then c :: escapeText style 0 s
    else escapeChar c ++ escapeText style 0 s

/-- The text in quotes. A text with a line feed goes over several lines and starts on a line of its
own: readers drop a line feed right behind the opening quotes. -/
def quote (text : String) : String :=
  let s := text.toList
  let style := Style.ofText s
  let body :=
    match style with
    | .basic | .basicLines => escapeText style 0 s
    | .literal | .literalLines => s
  let front : List Char := if s.contains '\n' then ['\n'] else []
  String.ofList (style.delimiter ++ front ++ body ++ style.delimiter)

end TestSynth.Toml
