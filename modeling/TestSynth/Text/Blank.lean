/-!
# White space

`isBlank` is the Unicode property White_Space: 25 characters. `trim` takes blanks off both ends of a
text and `firstWord?` is the first run of other characters.
-/

namespace TestSynth.Text

/-- A white-space character. -/
def isBlank (c : Char) : Bool :=
  let n := c.toNat
  (0x09 ≤ n && n ≤ 0x0D) || n == 0x20 || n == 0x85 || n == 0xA0 || n == 0x1680 ||
    (0x2000 ≤ n && n ≤ 0x200A) || n == 0x2028 || n == 0x2029 || n == 0x202F || n == 0x205F ||
    n == 0x3000

/-- The text without its leading blanks. -/
def trimStart (s : List Char) : List Char := s.dropWhile isBlank

/-- The text without its trailing blanks. -/
def trimEnd (s : List Char) : List Char := (s.reverse.dropWhile isBlank).reverse

/-- The text without the blanks at its ends. -/
def trim (s : List Char) : List Char := trimEnd (trimStart s)

/-- `trim` on strings. -/
def trimmed (s : String) : String := String.ofList (trim s.toList)

/-- The first run of characters that are not blank. -/
def firstWord? (s : List Char) : Option (List Char) :=
  match (trimStart s).takeWhile (fun c => !isBlank c) with
  | [] => none
  | w => some w

end TestSynth.Text
