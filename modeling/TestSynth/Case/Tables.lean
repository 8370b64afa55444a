import TestSynth.Expr
import TestSynth.Table

/-!
# Tables of a case

While the values of a case are read, its tables collect what is learned of its symbols: the
expression of each, the slot that holds its storage, and how many elements of a slot were indexed.
A symbol is registered once and keeps what it was registered with.
-/

namespace TestSynth

/-- A place in the storage of an argument: `depth` index steps away from the symbol `root`. -/
structure Slot where
  root : String
  depth : Nat
  deriving DecidableEq, Repr

namespace Slot

/-- The slot of a symbol that owns its storage. -/
def ofRoot (root : String) : Slot := ⟨root, 0⟩

/-- The slot one index step further. -/
def element (slot : Slot) : Slot := { slot with depth := slot.depth + 1 }

/-- Slots are ordered by their roots and then by their depths. -/
instance : Ord Slot where
  compare := compareLex (compareOn Slot.root) (compareOn Slot.depth)

instance : Std.TransOrd Slot :=
  inferInstanceAs (Std.TransCmp (compareLex (compareOn Slot.root) (compareOn Slot.depth)))

instance : Std.LawfulEqOrd Slot where
  eq_of_compare {a b} h := by
    obtain ⟨hroot, hdepth⟩ := compareLex_eq_eq.1 h
    cases a
    cases b
    simp only [compareOn, Std.compare_eq_iff_eq] at hroot hdepth
    simp [hroot, hdepth]

end Slot

/-- What is known of the symbols of a case. -/
structure Tables where
  /-- The value of each parameter and of each defined symbol, as text. -/
  parameters : Table String := ∅
  /-- The literal that the model gives to a symbol. -/
  values : Table String := ∅
  /-- The type of a symbol. -/
  types : Table String := ∅
  /-- The function whose call a symbol is the result of. -/
  callNames : Table String := ∅
  /-- The literal that the model gives to a call result. -/
  callValues : Table String := ∅
  /-- The expression of each registered symbol. -/
  exprs : Table Expr := ∅
  /-- The slot of each registered symbol. -/
  slots : Table Slot := ∅
  /-- The registered symbols, in the order of their registration. -/
  order : List String := []
  /-- The least number of elements of each slot that was indexed. -/
  sizes : Std.ExtTreeMap Slot Nat := ∅

namespace Tables

variable (t : Tables)

/-- The symbol is registered. -/
def isRegistered (name : String) : Bool := t.slots.contains name

/-- Registers a symbol with its text, expression, type and slot. A symbol that is registered already
stays as it is, and a parameter keeps its text. -/
def register (name text : String) (expr : Expr) (type? : Option String) (slot : Slot) : Tables :=
  if t.isRegistered name then t
  else
    { t with
      parameters := t.parameters.insertIfNew name text
      types := type?.elim t.types fun type => t.types.insert name type
      exprs := t.exprs.insert name expr
      slots := t.slots.insert name slot
      order := t.order ++ [name] }

/-- Records that a slot has at least `size` elements. -/
def recordSize (slot : Slot) (size : Nat) : Tables :=
  { t with sizes := t.sizes.insert slot (max (t.sizes[slot]?.getD 0) size) }

/-- The number of elements recorded for a slot, if it was indexed. -/
def recordedSize? (root : String) (depth : Nat) : Option Nat := t.sizes[Slot.mk root depth]?

/-- The number of elements that a slot needs, which is at least one. -/
def neededSize (root : String) (depth : Nat) : Nat := max ((t.recordedSize? root depth).getD 0) 1

end Tables

end TestSynth
