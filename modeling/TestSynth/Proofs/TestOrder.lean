import TestSynth.Code.TestFunction
import TestSynth.Proofs.Agree
import TestSynth.Proofs.AllocationOrder
import TestSynth.Proofs.OrderFree

/-!
# Tests in any order

The body of a test says little of the order in which the symbols of its case were registered: only
the order of the allocations follows it, and for each place it decides which symbol serves it.  So
if the symbols that are written as one place ask for the same, the body has the same statements in
whatever order the parameters are resolved.

* `Allocation.Unambiguous` : which symbol serves a place makes no difference.
* `Allocation.statements_alike` : the same allocations for tables that differ in their order only.
* `Case.Orderless` : neither the values nor the places depend on the order.
* `TestFunction.bodyInOrder_orderless` : the same statements in any order.
-/

namespace TestSynth

open Tables

namespace Allocation

variable {d : Declarations} {o : Options} {t t' : Tables} {exprs : Table Expr}

/-! ### Which symbol serves a place -/

/-- What all symbols ask for, in the order of registration. -/
def requests (d : Declarations) (t : Tables) (exprs : Table Expr) : List Demand :=
  t.order.filterMap (demand? d t exprs)

/-- Symbols that are written as the same place have the same type and the same root. -/
def Unambiguous (ds : List Demand) : Prop :=
  ∀ a ∈ ds, ∀ b ∈ ds, a.place = b.place → a.type = b.type ∧ a.root = b.root

/-- A demand without the symbol that makes it. -/
def Demand.anonymous (demand : Demand) : Demand := { demand with symbol := "" }

theorem nodup_anonymous_distinct (ds : List Demand) :
    ((distinct ds).map Demand.anonymous).Nodup := by
  refine .of_map Demand.place ?_
  rw [List.map_map]
  exact nodup_places ds

/-- Each place is served in the way in which all symbols of it ask for. -/
theorem Unambiguous.mem_anonymous_distinct {ds : List Demand} (h : Unambiguous ds) {a : Demand} :
    a ∈ (distinct ds).map Demand.anonymous ↔ a ∈ ds.map Demand.anonymous := by
  constructor
  · intro ha
    obtain ⟨demand, hdemand, rfl⟩ := List.mem_map.1 ha
    exact List.mem_map_of_mem (List.mem_of_find?_eq_some (mem_distinct.1 hdemand))
  · intro ha
    obtain ⟨demand, hdemand, rfl⟩ := List.mem_map.1 ha
    obtain ⟨server, hserver⟩ : ∃ server, ds.find? (·.place == demand.place) = some server :=
      Option.isSome_iff_exists.1 (List.find?_isSome.2 ⟨demand, hdemand, by simp⟩)
    have hplace : server.place = demand.place := by simpa using List.find?_some hserver
    obtain ⟨htype, hroot⟩ := h server (List.mem_of_find?_eq_some hserver) demand hdemand hplace
    refine List.mem_map.2 ⟨server, mem_distinct.2 (by rwa [hplace]), ?_⟩
    rw [Demand.anonymous, hplace, htype, hroot, Demand.anonymous]

/-- Demands in another order lead to the same ones being met, up to the symbols that make them. -/
theorem Unambiguous.distinct_perm {ds ds' : List Demand} (h : Unambiguous ds)
    (hperm : ds'.Perm ds) :
    ((distinct ds').map Demand.anonymous).Perm ((distinct ds).map Demand.anonymous) := by
  have h' : Unambiguous ds' := fun a ha b hb => h a (hperm.mem_iff.1 ha) b (hperm.mem_iff.1 hb)
  refine (List.perm_ext_iff_of_nodup (nodup_anonymous_distinct ds')
    (nodup_anonymous_distinct ds)).2 fun a => ?_
  rw [h'.mem_anonymous_distinct, h.mem_anonymous_distinct, (hperm.map _).mem_iff]

/-! ### Allocations -/

theorem fill_alike (h : Alike t t') (type root : String) (below depth : Nat) :
    fill t' type root below depth = fill t type root below depth := by
  induction below generalizing depth with
  | zero => rw [fill, fill, h.sizes]
  | succ below ih =>
    rw [fill, fill, h.sizes]
    simp only [ih]

/-- The statements that meet a demand, whichever symbol makes it. -/
def Demand.statements (o : Options) (t : Tables) (demand : Demand) :
    Except Error (List Statement) := do
  return Step.statements o demand.place (← demand.steps t)

theorem statements_eq (d : Declarations) (o : Options) (t : Tables) (exprs : Table Expr) :
    statements d o t exprs = do
      let parts ← ((demands d t exprs).map Demand.anonymous).mapM (Demand.statements o t)
      return parts.flatten := by
  rw [List.mapM_map]
  rfl

/-- **The same is allocated** if the tables differ in nothing but the order of registration. -/
theorem statements_alike (h : Alike t t') (hunambiguous : Unambiguous (requests d t exprs)) :
    Agree (fun ss ss' => ss'.Perm ss) (statements d o t exprs) (statements d o t' exprs) := by
  have hdemand (symbol : String) : demand? d t' exprs symbol = demand? d t exprs symbol := by
    rw [demand?, h.slots, h.types, demand?]
  have hrequests : (requests d t' exprs).Perm (requests d t exprs) := by
    rw [requests, funext hdemand]
    exact h.order.filterMap _
  have hstatements : Demand.statements o t' = Demand.statements o t := by
    funext demand
    rw [Demand.statements, Demand.steps, fill_alike h, Demand.statements, Demand.steps]
  rw [statements_eq, statements_eq, hstatements]
  have hperm := hunambiguous.distinct_perm hrequests
  exact (Agree.mapM_perm _ hperm).bind fun parts parts' hparts => .ok hparts.flatten

end Allocation

open Allocation

/-- The test of a case does not depend on the order in which its parameters are resolved. -/
structure Case.Orderless (c : Case) (d : Declarations) : Prop where
  /-- No value depends on those that are bound before it. -/
  values : OrderFree d (c.intake d)
  /-- Which symbol serves a place makes no difference. -/
  places :
    let t := (d.resolveParameters (c.intake d)).2
    Unambiguous (requests d t t.substituted)

namespace TestFunction

variable {d : Declarations} {o : Options}

/-- The body of a test, if the parameters of the case are resolved in a given order. -/
def bodyInOrder (d : Declarations) (o : Options) (function : String) (parameters : List TypedName)
    (names : List String) (t : Tables) : Except Error (List Statement) :=
  match d.resolveEach names t with
  | (.error e, _) => .error (.malformedValue e)
  | (.ok (), t) => do
    let exprs := t.substituted
    let allocations ← Allocation.statements d o t exprs
    return parameters.map (fun p => .declare p.type p.name) ++ allocations ++
      assignments d t exprs ++
      [.call function (parameters.map (·.name)), .call o.releaser []]

theorem body_eq (function : String) (parameters : List TypedName) (t : Tables) :
    body d o function parameters t =
      bodyInOrder d o function parameters (Declarations.schedule t) t := rfl

/-- **The body of a test has the same statements in any order** in which the parameters of an
orderless case are resolved. -/
theorem bodyInOrder_orderless {c : Case} (horderless : c.Orderless d) (function : String)
    (parameters : List TypedName) {names : List String}
    (h : ∀ s ∈ (c.intake d).parameters, s ∈ names) :
    Agree (fun ss ss' => ss'.Perm ss) (body d o function parameters (c.intake d))
      (bodyInOrder d o function parameters names (c.intake d)) := by
  obtain ⟨hfree, hplaces⟩ := horderless
  have hschedule : ∀ s ∈ (c.intake d).parameters, s ∈ Declarations.schedule (c.intake d) :=
    fun s hs => Declarations.mem_schedule.2 hs
  rw [d.resolveParameters_eq] at hplaces
  rw [body_eq, bodyInOrder, bodyInOrder]
  rcases d.resolveEach_orderFree hfree hschedule h with
    ⟨e, e', t, t', heq, heq'⟩ | ⟨t, t', heq, heq', halike⟩
  · rw [heq, heq']
    exact .error _ _
  · have hsubstituted : t'.substituted = t.substituted := by
      rw [substituted, substituted, Tables.budget, Tables.budget, halike.exprs]
    have hassignments : assignments d t' t.substituted = assignments d t t.substituted := by
      rw [assignments, halike.values, halike.types, assignments]
    rw [heq] at hplaces
    rw [heq, heq']
    dsimp only
    rw [hsubstituted, hassignments]
    refine (statements_alike halike hplaces).bind fun ss ss' hss => .ok ?_
    exact ((hss.append_left _).append_right _).append_right _

end TestFunction

end TestSynth
