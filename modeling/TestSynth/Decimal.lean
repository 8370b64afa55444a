/-!
# Decimal numbers

A number in decimal notation is kept as digits and an exponent of ten; its sign does not matter
here. The only question asked of it is whether it is finite as a double. There are two answers,
since there are two ways to a double: `isFinite` rounds the number once, `isFiniteByFactors` rounds
its digits, its power of ten and their product, and may overflow a little earlier.
-/

namespace TestSynth

/-- The number `digits * 10 ^ exponent`. -/
structure Decimal where
  digits : Nat
  exponent : Int
  deriving DecidableEq, Repr

namespace Decimal

/-- The value of an ASCII digit. -/
def digit (d : Char) : Nat := d.toNat - '0'.toNat

/-- The number that a run of ASCII digits writes. -/
def ofDigits (ds : List Char) : Nat := ds.foldl (fun n d => 10 * n + digit d) 0

/-- The number with the given digits before and behind its point, times a power of ten. -/
def ofParts (whole fraction : List Char) (exponent : Int) : Decimal :=
  ⟨ofDigits (whole ++ fraction), exponent - fraction.length⟩

/-- A number with digits put behind it while it stays below `2 ^ 64`, and how many of them
are left. -/
def extend (n : Nat) : List Char → Nat × Nat
  | [] => (n, 0)
  | d :: ds =>
    let m := 10 * n + digit d
    if m < 0x10000000000000000 then extend m ds else (n, ds.length + 1)

/-- As `ofParts`, with only so many digits as fit into 64 bits. From the first digit of a part that
does not fit, the part's digits count as zeros. -/
def ofLeading (whole fraction : List Char) (exponent : Int) : Decimal :=
  let (n, dropped) := extend 0 whole
  let (n, unread) := extend n fraction
  ⟨n, exponent + dropped + unread - fraction.length⟩

/-- The least number that is rounded to infinity: half-way between the greatest double and the next
power of two. -/
def overflow : Nat := Nat.pow 2 1024 - Nat.pow 2 970

/-- The number does not overflow to infinity when it is rounded to a double. Only numbers of 309
digits need an exact comparison. -/
def isFinite (n : Decimal) : Bool :=
  let magnitude : Int := (toString n.digits).length + n.exponent
  n.digits == 0 || magnitude < 309 ||
    (magnitude == 309 &&
      n.digits * Nat.pow 10 n.exponent.toNat < overflow * Nat.pow 10 (-n.exponent).toNat)

/-- The nearest number with at most 53 binary digits before its zeros. Of two that are equally near
it is the one whose last digit is even. -/
def round53 (n : Nat) : Nat :=
  let unit := Nat.pow 2 (n.log2 - 52)
  let count := n / unit
  let rest := n % unit
  if unit < 2 * rest || (2 * rest == unit && count % 2 == 1) then (count + 1) * unit
  else count * unit

/-- The number does not overflow when its digits are rounded to a double, its power of ten is
rounded to a double, and their product is rounded. Digits of at most 64 bits, as `ofLeading` takes
them, cannot overflow where the power is a divisor. -/
def isFiniteByFactors (n : Decimal) : Bool :=
  n.digits == 0 || n.exponent ≤ 0 ||
    (n.exponent ≤ 308 && round53 n.digits * round53 (Nat.pow 10 n.exponent.toNat) < overflow)

end Decimal

end TestSynth
