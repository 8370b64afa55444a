import TestSynth.Text.Blank
import TestSynth.Text.Split
import TestSynth.Value.ParseError

/-!
# Element indices

An index is a 64-bit signed number in decimal or hexadecimal, with a width behind it (`2 S64b`) that
is not read. A minus sign in front is taken off before the base is decided and applied at the end;
what is then read as a number may carry a sign of its own.
-/

namespace TestSynth.Index

/-- The least index. -/
def least : Int := -0x8000000000000000

/-- The greatest index. -/
def greatest : Int := 0x7fffffffffffffff

/-- The index lies in the range of 64-bit signed numbers. -/
def inRange (n : Int) : Bool := least ≤ n && n ≤ greatest

/-- The value of an ASCII digit below `base`. -/
def digit? (base : Nat) (c : Char) : Option Nat :=
  let value? :=
    if '0' ≤ c && c ≤ '9' then some (c.toNat - '0'.toNat)
    else if 'a' ≤ c && c ≤ 'f' then some (c.toNat - 'a'.toNat + 10)
    else if 'A' ≤ c && c ≤ 'F' then some (c.toNat - 'A'.toNat + 10)
    else none
  value?.filter (· < base)

/-- The number that digits write behind a number already read. -/
def digitsFrom? (base : Nat) (read : Nat) : List Char → Option Nat
  | [] => some read
  | c :: s => (digit? base c).bind fun d => digitsFrom? base (base * read + d) s

/-- The number that a nonempty run of digits writes. -/
def natural? (base : Nat) (s : List Char) : Option Nat :=
  if s.isEmpty then none else digitsFrom? base 0 s

/-- The number that digits with at most one sign write, if it is in range. -/
def signed? (base : Nat) (s : List Char) : Option Int :=
  let number? : Option Int :=
    match s with
    | '-' :: s => (natural? base s).map fun n => -(n : Int)
    | '+' :: s => (natural? base s).map fun n => (n : Int)
    | s => (natural? base s).map fun n => (n : Int)
  number?.filter inRange

/-- The number that a text writes in the base that its first characters announce. -/
def based? : List Char → Option Int
  | '0' :: 'x' :: s => signed? 16 s
  | '0' :: 'X' :: s => signed? 16 s
  | s => signed? 10 s

/-- The opposite index; the least one is its own opposite, as 64-bit arithmetic has it. -/
def negate (n : Int) : Int := if n = least then least else -n

/-- The index that a word writes. -/
def ofWord? : List Char → Option Int
  | '-' :: s => (based? s).map negate
  | s => based? s

/-- The index that the first word of a text writes. -/
def parse (text : String) : Except ParseError Int :=
  match (Text.firstWord? text.toList).bind ofWord? with
  | some n => .ok n
  | none => .error (.invalidIndex text)

end TestSynth.Index
