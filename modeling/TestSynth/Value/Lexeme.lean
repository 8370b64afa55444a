import TestSynth.Value.Token

/-!
# Lexemes

A text is a sequence of lexemes: each has the gap that was skipped before it, its token and the byte
offset at which the token starts. Gaps and tokens together are the whole text, up to blanks at its
end, so the source of a run of lexemes is put together from the lexemes alone.
-/

namespace TestSynth

/-- A token in its place. -/
structure Lexeme where
  /-- The blanks skipped in front of the token. -/
  gap : String
  token : Token
  /-- The byte offset of the token. -/
  start : Nat
  deriving DecidableEq, Repr

namespace Lexeme

/-- A character that separates tokens. -/
def isGap (c : Char) : Bool := c == ' ' || c == '\t' || c == '\n' || c == '\r'

/-- The text of the token. -/
def text (l : Lexeme) : String := l.token.spelling

/-- The byte offset behind the token. -/
def stop (l : Lexeme) : Nat := l.start + l.text.utf8ByteSize

/-- The lexemes of a text that starts at byte offset `pos`. -/
def readFrom (pos : Nat) (s : List Char) : List Lexeme :=
  match h : Token.scan? (s.dropWhile isGap) with
  | none => []
  | some (token, rest) =>
    have : rest.length < s.length :=
      Nat.lt_of_lt_of_le (Token.length_scan?_lt h) (List.dropWhile_sublist isGap).length_le
    let gap := String.ofList (s.takeWhile isGap)
    let lexeme : Lexeme := ⟨gap, token, pos + gap.utf8ByteSize⟩
    lexeme :: readFrom lexeme.stop rest
termination_by s.length

/-- The lexemes of a text. -/
def ofText (source : String) : List Lexeme := readFrom 0 source.toList

/-- The text from the first of some consecutive lexemes to the last. -/
def sourceText : List Lexeme → String
  | [] => ""
  | l :: ls => l.text ++ String.join (ls.map fun m => m.gap ++ m.text)

/-- The byte offset of the next lexeme, or the end of the text. -/
def position (size : Nat) : List Lexeme → Nat
  | [] => size
  | l :: _ => l.start

/-- The text of the next lexeme, as error messages give it. -/
def found : List Lexeme → String
  | [] => "end of input"
  | l :: _ => l.text

/-- The byte offset behind the last lexeme. -/
def endOf (ls : List Lexeme) : Nat := (ls.getLast?.map stop).getD 0

end Lexeme

end TestSynth
