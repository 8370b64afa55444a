import TestSynth.Decimal
import TestSynth.Toml.Basic

/-!
# Numbers and dates of TOML

A value that is neither quoted nor bracketed is one run of characters, and its form tells its kind.
Underscores may stand between two digits. Integers have 64 bits; a float must not overflow upwards.
-/

namespace TestSynth.Toml

/-- The digits of a run in which single underscores stand between digits only. -/
def grouped? (isDigit : Char → Bool) : List Char → Option (List Char)
  | [] => none
  | [c] => if isDigit c then some [c] else none
  | c :: '_' :: s => if isDigit c then (grouped? isDigit s).map (c :: ·) else none
  | c :: s => if isDigit c then (grouped? isDigit s).map (c :: ·) else none

/-- The digits of a decimal whole number, which begins with zero only if it is zero. -/
def whole? (s : List Char) : Option (List Char) := do
  match ← grouped? Char.isDigit s with
  | '0' :: _ :: _ => none
  | ds => some ds

/-- The value of a digit in a base up to sixteen. -/
def digit? (base : Nat) (c : Char) : Option Nat :=
  let value? :=
    if c.isDigit then some (c.toNat - '0'.toNat)
    else if 'a' ≤ c && c ≤ 'f' then some (c.toNat - 'a'.toNat + 10)
    else if 'A' ≤ c && c ≤ 'F' then some (c.toNat - 'A'.toNat + 10)
    else none
  value?.filter (· < base)

/-- The number that a run of digits writes in a base. -/
def based? (base : Nat) (s : List Char) : Option Int := do
  let ds ← grouped? (fun c => (digit? base c).isSome) s
  let n : Nat := ds.foldl (fun n c => base * n + (digit? base c).getD 0) 0
  return n

/-- The sign of a run and the rest of it. -/
def splitSign : List Char → Bool × List Char
  | '-' :: s => (true, s)
  | '+' :: s => (false, s)
  | s => (false, s)

/-- The integer that a run writes, in any range. -/
def number? (s : List Char) : Option Int :=
  match s with
  | '0' :: 'x' :: s => based? 16 s
  | '0' :: 'o' :: s => based? 8 s
  | '0' :: 'b' :: s => based? 2 s
  | s => do
    let (negative, s) := splitSign s
    let n : Int := Decimal.ofDigits (← whole? s)
    return if negative then -n else n

/-- The integer value that a run writes. -/
def integer? (s : List Char) : Option Value := do
  let n ← number? s
  if -0x8000000000000000 ≤ n && n < 0x8000000000000000 then some (.integer n) else none

/-- The exponent of ten that a run writes; it may have leading zeros. -/
def power? (s : List Char) : Option Int := do
  let (negative, s) := splitSign s
  let n : Int := Decimal.ofDigits (← grouped? Char.isDigit s)
  return if negative then -n else n

/-- The float value that a run writes. -/
def float? (s : List Char) : Option Value := do
  let (negative, s) := splitSign s
  if s = "inf".toList || s = "nan".toList then return .float
  let isMark (c : Char) : Bool := c == 'e' || c == 'E'
  let whole ← whole? (s.takeWhile fun c => !(c == '.' || isMark c))
  let rest := s.dropWhile fun c => !(c == '.' || isMark c)
  let (fraction, rest) ←
    match rest with
    | '.' :: rest => do
      let fraction ← grouped? Char.isDigit (rest.takeWhile (!isMark ·))
      some (fraction, rest.dropWhile (!isMark ·))
    | rest => some ([], rest)
  let power ←
    match rest with
    | [] => if fraction.isEmpty then none else some 0
    | _ :: rest => power? rest
  if negative || (Decimal.ofParts whole fraction power).isFinite then some .float else none

/-! ### Dates and times -/

/-- The number that `count` digits at the front of a run write, and the rest. -/
def fixed? (count : Nat) (s : List Char) : Option (Nat × List Char) :=
  let ds := s.take count
  if ds.length = count && ds.all Char.isDigit then some (Decimal.ofDigits ds, s.drop count)
  else none

/-- What follows a given character. -/
def afterChar? (c : Char) : List Char → Option (List Char)
  | d :: s => if d = c then some s else none
  | [] => none

/-- The number of days of a month. -/
def daysIn (year month : Nat) : Nat :=
  if month = 2 then
    if year % 4 = 0 && (year % 100 ≠ 0 || year % 400 = 0) then 29 else 28
  else if month = 4 || month = 6 || month = 9 || month = 11 then 30
  else 31

/-- What follows a date at the front of a run. -/
def afterDate? (s : List Char) : Option (List Char) := do
  let (year, s) ← fixed? 4 s
  let (month, s) ← fixed? 2 (← afterChar? '-' s)
  let (day, s) ← fixed? 2 (← afterChar? '-' s)
  if 1 ≤ month && month ≤ 12 && 1 ≤ day && day ≤ daysIn year month then some s else none

/-- What follows a time of day at the front of a run. -/
def afterTime? (s : List Char) : Option (List Char) := do
  let (hour, s) ← fixed? 2 s
  let (minute, s) ← fixed? 2 (← afterChar? ':' s)
  let (second, s) ← fixed? 2 (← afterChar? ':' s)
  if hour > 23 || minute > 59 || second > 60 then none
  match s with
  | '.' :: c :: s => if c.isDigit then some (s.dropWhile Char.isDigit) else none
  | '.' :: [] => none
  | s => some s

/-- The run is an offset from universal time, or empty. -/
def isOffset : List Char → Bool
  | [] | ['Z'] | ['z'] => true
  | c :: s =>
    (c == '+' || c == '-') &&
      match (fixed? 2 s).bind fun (hour, s) => do
        let (minute, rest) ← fixed? 2 (← afterChar? ':' s)
        return (hour, minute, rest) with
      | some (hour, minute, []) => hour ≤ 23 && minute ≤ 59
      | _ => false

/-- The run is a time of day with an offset, if any. -/
def isOffsetTime (s : List Char) : Bool := (afterTime? s).any isOffset

/-- The run is a date and nothing more. -/
def isDate (s : List Char) : Bool := afterDate? s == some []

/-- The date value that a run writes: a date, a time, or both with a letter between them. -/
def date? (s : List Char) : Option Value :=
  let isMoment :=
    match afterDate? s with
    | some [] => true
    | some (c :: s) => (c == 'T' || c == 't') && isOffsetTime s
    | none => afterTime? s == some []
  if isMoment then some .date else none

/-- The value that a run writes. -/
def scalar? (s : List Char) : Option Value :=
  if s = "true".toList || s = "false".toList then some .boolean
  else (date? s).or ((float? s).or (integer? s))

end TestSynth.Toml
