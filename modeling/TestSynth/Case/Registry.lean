import TestSynth.Sha256
import TestSynth.Table

/-!
# Registry of cases

A run makes one test for each distinct case. Two cases are taken for the same if they have the same
digest: the hash of the function and of what the model says, whatever the parameters look like. The
cases that were accepted are numbered from one.
-/

namespace TestSynth

/-- What is hashed of a case: the function, then each symbol and its literal in the order of the
symbols, with a zero byte in front of each of these. -/
def caseBytes (function : String) (values : Table String) : List UInt8 :=
  function.toUTF8.toList ++
    values.toList.flatMap fun (symbol, literal) =>
      0 :: symbol.toUTF8.toList ++ 0 :: literal.toUTF8.toList

/-- The hash of a case. -/
abbrev Digest := List UInt8

/-- The digest of a case. -/
def caseDigest (function : String) (values : Table String) : Digest :=
  Sha256.hash (caseBytes function values)

/-- The digests of the accepted cases, the latest first. -/
structure Registry where
  accepted : List Digest := []
  deriving DecidableEq, Repr

namespace Registry

/-- The number of accepted cases. -/
def size (r : Registry) : Nat := r.accepted.length

/-- Accepts a digest that is new and gives it the next number. -/
def register (r : Registry) (digest : Digest) : Option Nat × Registry :=
  if digest ∈ r.accepted then (none, r) else (some (r.size + 1), ⟨digest :: r.accepted⟩)

/-- Accepts a case that is new. -/
def registerCase (r : Registry) (function : String) (values : Table String) :
    Option Nat × Registry :=
  r.register (caseDigest function values)

end Registry

end TestSynth
