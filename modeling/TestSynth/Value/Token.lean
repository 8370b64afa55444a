/-!
# Tokens of the value language

A symbolic value is written with a few markers (`Element{`, `SymRegion{`, numbered symbols),
delimiters and punctuation; every other run of characters is a word. A token is the longest one that
the text begins with, and a marker wins over a word of the same length.
-/

namespace TestSynth

/-- A token of the value language. -/
inductive Token where
  | elementOpen
  | regionOpen
  /-- A register symbol, `reg_$` and a number. -/
  | register (name : String)
  /-- A conjured symbol, `conj_$` and a number. -/
  | conjured (name : String)
  | openBrace
  | closeBrace
  | openAngle
  | closeAngle
  | openParen
  | closeParen
  | openBracket
  | closeBracket
  | comma
  | dot
  | arrow
  | minus
  | word (text : String)
  deriving DecidableEq, Repr

namespace Token

/-- The text of a token. -/
def spelling : Token → String
  | elementOpen => "Element\x7b"
  | regionOpen => "SymRegion\x7b"
  | register name => name
  | conjured name => name
  | openBrace => "\x7b"
  | closeBrace => "\x7d"
  | openAngle => "<"
  | closeAngle => ">"
  | openParen => "("
  | closeParen => ")"
  | openBracket => "["
  | closeBracket => "]"
  | comma => ","
  | dot => "."
  | arrow => "->"
  | minus => "-"
  | word text => text

/-- The name of a token's kind, as error messages give it. -/
def kind : Token → String
  | elementOpen => "ElementOpen"
  | regionOpen => "SymRegionOpen"
  | register _ => "Register"
  | conjured _ => "Conjured"
  | openBrace => "LBrace"
  | closeBrace => "RBrace"
  | openAngle => "Lt"
  | closeAngle => "Gt"
  | openParen => "LParen"
  | closeParen => "RParen"
  | openBracket => "LBracket"
  | closeBracket => "RBracket"
  | comma => "Comma"
  | dot => "Dot"
  | arrow => "Arrow"
  | minus => "Minus"
  | word _ => "Word"

/-- A token that opens a group in braces. -/
def opensBrace : Token → Bool
  | elementOpen | regionOpen | openBrace => true
  | _ => false

/-- A token that opens a group in brackets of any kind. -/
def opensGroup : Token → Bool
  | openParen | openBracket => true
  | t => t.opensBrace

/-- A token that closes a group in brackets of any kind. -/
def closesGroup : Token → Bool
  | closeBrace | closeParen | closeBracket => true
  | _ => false

/-- The number of open groups behind a token, given that before it. -/
def nest (t : Token) (nesting : Nat) : Nat :=
  if t.opensGroup then nesting + 1 else if t.closesGroup then nesting - 1 else nesting

/-- A character that may be part of a word. -/
def isWordChar (c : Char) : Bool :=
  !" \t\n\r\x7b\x7d()[]<>,.-".toList.contains c

/-- `mark` and at least one ASCII digit, with nothing behind them. -/
def isNumbered (mark w : List Char) : Bool :=
  mark.isPrefixOf w && mark.length < w.length && (w.drop mark.length).all Char.isDigit

/-- The token that a run of word characters begins, given what follows the run. -/
def ofRun (run rest : List Char) : Token × List Char :=
  match rest with
  | '{' :: behind =>
    if run = "Element".toList then (elementOpen, behind)
    else if run = "SymRegion".toList then (regionOpen, behind)
    else plain
  | _ => plain
where
  /-- The token that is the run itself. -/
  plain : Token × List Char :=
    if isNumbered "reg_$".toList run then (register (String.ofList run), rest)
    else if isNumbered "conj_$".toList run then (conjured (String.ofList run), rest)
    else (word (String.ofList run), rest)

/-- The token at the front of a text and what follows it. -/
def scan? : List Char → Option (Token × List Char)
  | '{' :: s => some (openBrace, s)
  | '}' :: s => some (closeBrace, s)
  | '<' :: s => some (openAngle, s)
  | '>' :: s => some (closeAngle, s)
  | '(' :: s => some (openParen, s)
  | ')' :: s => some (closeParen, s)
  | '[' :: s => some (openBracket, s)
  | ']' :: s => some (closeBracket, s)
  | ',' :: s => some (comma, s)
  | '.' :: s => some (dot, s)
  | '-' :: '>' :: s => some (arrow, s)
  | '-' :: s => some (minus, s)
  | s =>
    match s.takeWhile isWordChar with
    | [] => none
    | run => some (ofRun run (s.dropWhile isWordChar))

theorem length_ofRun_le (run rest : List Char) : (ofRun run rest).2.length ≤ rest.length := by
  have hplain : (ofRun.plain run rest).2 = rest := by
    unfold ofRun.plain
    split
    · rfl
    · split <;> rfl
  unfold ofRun
  split
  · split
    · simp
    · split
      · simp
      · simp [hplain]
  · simp [hplain]

/-- A token takes at least one character. -/
theorem length_scan?_lt {s rest : List Char} {t : Token} (h : scan? s = some (t, rest)) :
    rest.length < s.length := by
  unfold scan? at h
  split at h
  all_goals first
    | (cases h; simp only [List.length_cons]; omega)
    | skip
  split at h
  · cases h
  · next run hrun =>
    have hlen := congrArg List.length (List.takeWhile_append_dropWhile (p := isWordChar) (l := s))
    rw [List.length_append] at hlen
    have hle := length_ofRun_le (s.takeWhile isWordChar) (s.dropWhile isWordChar)
    have hpos : 0 < (s.takeWhile isWordChar).length := List.length_pos_iff.2 hrun
    rw [Option.some.inj h] at hle
    simp only at hle
    omega

end Token

end TestSynth
