import TestSynth.Case.Tables
import TestSynth.Code.Options
import TestSynth.Code.Statement
import TestSynth.Error
import TestSynth.TypeResolution

/-!
# Allocation

Each symbol that owns its storage and has a pointer type gets a buffer, with at least as many
elements as were indexed. If the elements are pointers themselves, a loop over the buffer gives each
of them a buffer of its own, level by level down to the last pointer.

`Allocation.demands` says which places need buffers, `Allocation.fill` in which steps one of them
gets its own, and `Allocation.statements` writes all of that in C.
-/

namespace TestSynth.Allocation

/-- A step in filling a place with buffers. The counter of a loop is known by its number. -/
inductive Step where
  /-- A buffer of `count` elements of a type, for the element of the place that the counters in
  `indices` lead to, one index after the other. -/
  | allocate (indices : List Nat) (element : String) (count : Nat)
  /-- The counter runs from 0 and stays below `bound`. -/
  | loop (counter bound : Nat) (body : List Step)
  deriving Repr

/-- A place that needs buffers. -/
structure Demand where
  /-- The symbol that stands for the place. -/
  symbol : String
  /-- The place as it is written in C. -/
  place : String
  /-- The resolved type of the place. -/
  type : String
  /-- The symbol under which the sizes are recorded. -/
  root : String
  deriving DecidableEq, Repr

variable (d : Declarations) (o : Options) (t : Tables)

/-! ### What is needed -/

/-- The demand of a symbol, given the expressions of all symbols. -/
def demand? (exprs : Table Expr) (symbol : String) : Option Demand := do
  let slot ← t.slots[symbol]?
  let expr ← exprs[symbol]?
  let declared ← t.types[symbol]?
  let type := d.resolveType declared
  if slot.depth = 0 && !expr.isIndex && isPointer type then
    some ⟨symbol, expr.render, type, slot.root⟩
  else none

/-- The demands without those for a place that an earlier one serves. -/
def distinct : List Demand → List Demand
  | [] => []
  | demand :: demands => demand :: (distinct demands).filter (·.place != demand.place)

/-- The demands of a case, in the order of registration. -/
def demands (exprs : Table Expr) : List Demand := distinct (t.order.filterMap (demand? d t exprs))

/-! ### How it is provided -/

/-- The steps that provide a buffer of what `type` stores `depth` dereferences away, and its
elements with buffers of their own for the `below` levels of pointers that follow. The loop over a
buffer has the depth of the buffer as its counter. -/
def fill (type root : String) : (below depth : Nat) → Except Error (List Step)
  | below, depth => do
    let some element := elementType? type depth | .error (.unresolvableType type depth)
    let count := t.neededSize root depth
    let here := Step.allocate (List.range depth) element count
    match below with
    | 0 => return [here]
    | below + 1 => return [here, .loop depth count (← fill type root below (depth + 1))]

/-- The steps that meet a demand. -/
def Demand.steps (demand : Demand) : Except Error (List Step) :=
  fill t demand.type demand.root (pointerDepth demand.type - 1) 0

theorem fill_ok {t : Tables} {type root : String} {below depth : Nat} {steps : List Step}
    (h : fill t type root below depth = .ok steps) :
    ∃ element rest, elementType? type depth = some element ∧
      steps = .allocate (List.range depth) element (t.neededSize root depth) :: rest ∧
      ((below = 0 ∧ rest = []) ∨
        ∃ below' inner, below = below' + 1 ∧ fill t type root below' (depth + 1) = .ok inner ∧
          rest = [.loop depth (t.neededSize root depth) inner]) := by
  unfold fill at h
  split at h
  · next element helement =>
    cases below with
    | zero =>
      cases h
      exact ⟨element, [], helement, rfl, .inl ⟨rfl, rfl⟩⟩
    | succ below =>
      obtain ⟨inner, hinner, h⟩ := bind_ok h
      cases h
      exact ⟨element, _, helement, rfl, .inr ⟨below, inner, rfl, hinner, rfl⟩⟩
  · cases h

/-! ### How it is written -/

/-- The name of a counter. Counters are numbered from zero, their names from one. -/
def counterName (counter : Nat) : String := o.counterMark ++ toString (counter + 1)

/-- The element of a place that some counters lead to. -/
def elementText (place : String) (indices : List Nat) : String :=
  place ++ String.join (indices.map fun counter => "[" ++ counterName o counter ++ "]")

/-- The call that allocates `count` elements of a type. -/
def request (element : String) (count : Nat) : String :=
  o.allocator ++ "(sizeof(" ++ element ++ ") * " ++ toString count ++ ")"

mutual

/-- The statement for a step. -/
def Step.statement (place : String) : Step → Statement
  | allocate indices element count =>
    .assign (elementText o place indices) (request o element count)
  | loop counter bound body => .loop (counterName o counter) bound (Step.statements place body)

/-- The statements for some steps. -/
def Step.statements (place : String) : List Step → List Statement
  | [] => []
  | step :: steps => step.statement place :: Step.statements place steps

end

/-- The allocations of a case. `exprs` are the expressions of the symbols with all references
replaced. -/
def statements (exprs : Table Expr) : Except Error (List Statement) := do
  let parts ← (demands d t exprs).mapM fun demand => do
    return Step.statements o demand.place (← demand.steps t)
  return parts.flatten

end TestSynth.Allocation
