import TestSynth.Proofs.Renaming.Cases
import TestSynth.Proofs.TestOrder

/-!
# Bodies of renamed tests

Renamed tables lead to the renamed statements: what a symbol is written as is renamed, what it needs
is allocated in the same steps, and its literal is assigned.  Only the order of the assignments is
that of the names, so it may be another one.

* `Renaming.render_expr` : how a renamed expression is written.
* `Renaming.allocations_renamed` : the allocations, in the same order.
* `Renaming.assignments_renamed` : the assignments, in any order.
* `Renaming.bodyInOrder_renamed` : the body, if the parameters are resolved in the same order.
-/

namespace TestSynth

open Text (isNameChar Cut Plain)

namespace Renaming

variable (ρ : Renaming)

/-! ### Expressions -/

theorem text_toString (i : Int) : ρ.text (toString i) = toString i := by
  refine ρ.text_of_plain fun hdollar => ?_
  rcases Index.isDigit_or_minus_of_mem hdollar with h | h <;> exact absurd h (by decide)

theorem isCast_expr (e : Expr) : (ρ.expr e).isCast = e.isCast := by
  cases e <;> rfl

theorem isIndex_expr (e : Expr) : (ρ.expr e).isIndex = e.isIndex := by
  cases e <;> rfl

/-- **A renamed expression is written as the expression is, renamed.** -/
theorem render_expr (e : Expr) : (ρ.expr e).render = ρ.text e.render := by
  have hparen (e : Expr) (text : String) :
      (ρ.expr e).parenthesize (ρ.text text) = ρ.text (e.parenthesize text) := by
    rw [Expr.parenthesize, Expr.parenthesize, isCast_expr]
    split
    · rw [ρ.text_append_mark (by decide), ρ.text_mark_append (by decide)]
    · rfl
  induction e with
  | ident name => rfl
  | index base i ih =>
    rw [expr, Expr.render, ih, hparen, Expr.render, ρ.text_append_mark (by decide),
      ρ.text_between (by decide), text_toString]
  | field base name viaPointer ih =>
    rw [expr, Expr.render, ih, hparen, Expr.render]
    cases viaPointer with
    | false => exact (@text_between ρ "." (by decide) _ _).symm
    | true => exact (@text_between ρ "->" (by decide) _ _).symm
  | cast type inner ih =>
    rw [expr, Expr.render, ih, hparen, Expr.render,
      ρ.text_between (by decide), ρ.text_mark_append (by decide)]

/-! ### Substitution -/

theorem referentOf_text (name : String) : referentOf (ρ.text name) = ρ.text (referentOf name) := by
  rw [referentOf, toList_text, isPrefixOf_conjured, referentOf]
  split
  · rw [text_ofList, takeWhile_chars]
    intro c hc
    rw [bne_iff_ne]
    rintro rfl
    revert hc
    decide
  · rfl

theorem mapNames_expr {f f' : String → Option Expr}
    (h : ∀ name, f' (ρ.text name) = (f name).map ρ.expr) (e : Expr) :
    (ρ.expr e).mapNames f' = ρ.expr (e.mapNames f) := by
  induction e with
  | ident name =>
    rw [expr, Expr.mapNames, h, Expr.mapNames]
    cases f name <;> rfl
  | index base i ih => exact congrArg (Expr.index · i) ih
  | field base name viaPointer ih => exact congrArg (Expr.field · (ρ.text name) viaPointer) ih
  | cast type inner ih => exact congrArg (Expr.cast (ρ.text type)) ih

theorem expand_expr {exprs exprs' : Table Expr} (h : ρ.Carries ρ.expr exprs exprs') (steps : Nat)
    (e : Expr) : (ρ.expr e).expand exprs' steps = ρ.expr (e.expand exprs steps) := by
  induction steps generalizing e with
  | zero => rfl
  | succ steps ih =>
    refine ρ.mapNames_expr (fun name => ?_) e
    rw [referentOf_text, h]
    cases exprs[referentOf name]? with
    | none => rfl
    | some bound =>
      have hself : (ρ.expr bound).name? = some (ρ.text name) ↔ bound.name? = some name := by
        rw [name?_expr, Option.map_eq_some_iff]
        exact ⟨fun ⟨_, hname, heq⟩ => ρ.text_injective heq ▸ hname, fun hname => ⟨name, hname, rfl⟩⟩
      simp only [Option.map_some, hself]
      split
      · rfl
      · exact congrArg some (ih bound)

namespace Carries

variable {ρ} {α β : Type} {f : α → β} {m : Table α} {m' : Table β}

/-- A renamed table has the renamed entries, in another order. -/
theorem perm (h : ρ.Carries f m m') : m'.toList.Perm (m.toList.map (Prod.map ρ.text f)) := by
  have hnodup {γ : Type} (t : Table γ) : t.toList.Nodup :=
    t.distinct_keys_toList.imp fun hne heq => hne (Std.compare_eq_iff_eq.2 (congrArg Prod.fst heq))
  refine (List.perm_ext_iff_of_nodup (hnodup m') ?_).2 fun entry => ?_
  · refine List.pairwise_map.2 (m.distinct_keys_toList.imp fun hne heq => hne ?_)
    exact Std.compare_eq_iff_eq.2 (ρ.text_injective (congrArg Prod.fst heq))
  · obtain ⟨name', value'⟩ := entry
    obtain ⟨name, rfl⟩ : ∃ name, ρ.text name = name' := ⟨_, ρ.text_symm name'⟩
    rw [Std.ExtTreeMap.mem_toList_iff_getElem?_eq_some, h, Option.map_eq_some_iff, List.mem_map]
    constructor
    · rintro ⟨value, hvalue, rfl⟩
      exact ⟨(name, value), Std.ExtTreeMap.mem_toList_iff_getElem?_eq_some.2 hvalue, rfl⟩
    · rintro ⟨⟨other, value⟩, hmem, heq⟩
      obtain ⟨hname, rfl⟩ := Prod.mk.inj heq
      obtain rfl := ρ.text_injective hname
      exact ⟨value, Std.ExtTreeMap.mem_toList_iff_getElem?_eq_some.1 hmem, rfl⟩

theorem size_eq (h : ρ.Carries f m m') : m'.size = m.size := by
  rw [← Std.ExtTreeMap.length_toList, h.perm.length_eq, List.length_map,
    Std.ExtTreeMap.length_toList]

end Carries

theorem carries_substituted {t t' : Tables} (h : t.Renamed ρ t') :
    ρ.Carries ρ.expr t.substituted t'.substituted := by
  intro name
  rw [Tables.substituted, Tables.substituted, Tables.budget, Tables.budget,
    Std.ExtTreeMap.getElem?_map, Std.ExtTreeMap.getElem?_map, h.exprs.size_eq, h.exprs,
    Option.map_map, Option.map_map]
  exact congrArg (Option.map · _) (funext (ρ.expand_expr h.exprs _))

/-! ### Allocations -/

/-- A demand with its symbols renamed. -/
def demand (demand : Allocation.Demand) : Allocation.Demand :=
  ⟨ρ.text demand.symbol, ρ.text demand.place, ρ.text demand.type, ρ.text demand.root⟩

mutual

/-- A step with its symbols renamed. -/
def step : Allocation.Step → Allocation.Step
  | .allocate indices element count => .allocate indices (ρ.text element) count
  | .loop counter bound body => .loop counter bound (steps body)

/-- Steps with their symbols renamed. -/
def steps : List Allocation.Step → List Allocation.Step
  | [] => []
  | s :: rest => step s :: steps rest

end

mutual

/-- A statement with its symbols renamed. -/
def statement : Statement → Statement
  | .declare type name => .declare (ρ.text type) (ρ.text name)
  | .assign target value => .assign (ρ.text target) (ρ.text value)
  | .call function arguments => .call (ρ.text function) (arguments.map ρ.text)
  | .loop counter bound body => .loop (ρ.text counter) bound (statements body)

/-- Statements with their symbols renamed. -/
def statements : List Statement → List Statement
  | [] => []
  | s :: rest => statement s :: statements rest

end

section Allocations

open Allocation

variable {ρ} {d : Declarations} {o : Options} {t t' : Tables} {exprs exprs' : Table Expr}

theorem demand?_text (hd : d.Plain) (h : t.Renamed ρ t') (hexprs : ρ.Carries ρ.expr exprs exprs')
    (symbol : String) :
    demand? d t' exprs' (ρ.text symbol) = (demand? d t exprs symbol).map ρ.demand := by
  rw [demand?, h.slots, hexprs, h.types, demand?]
  cases t.slots[symbol]? with
  | none => rfl
  | some slot =>
    cases exprs[symbol]? with
    | none => rfl
    | some e =>
      cases t.types[symbol]? with
      | none => rfl
      | some declared =>
        have hdepth : (ρ.slot slot).depth = slot.depth := rfl
        simp only [Option.map_some, Option.bind_eq_bind, Option.bind_some, ρ.resolveType_text hd,
          isIndex_expr, isPointer_text, render_expr, hdepth]
        split <;> rfl

theorem distinct_map (ds : List Demand) :
    distinct (ds.map ρ.demand) = (distinct ds).map ρ.demand := by
  induction ds with
  | nil => rfl
  | cons first ds ih =>
    rw [List.map_cons, distinct, ih, List.filter_map, distinct, List.map_cons]
    refine congrArg (ρ.demand first :: List.map ρ.demand ·) (List.filter_congr fun other _ => ?_)
    rw [Bool.eq_iff_iff, Function.comp, bne_iff_ne, bne_iff_ne, demand, demand,
      ρ.text_injective.ne_iff]

theorem demands_renamed (hd : d.Plain) (h : t.Renamed ρ t')
    (hexprs : ρ.Carries ρ.expr exprs exprs') :
    demands d t' exprs' = (demands d t exprs).map ρ.demand := by
  rw [demands, h.order, List.filterMap_map, demands, ← distinct_map, List.map_filterMap]
  exact congrArg (fun f => distinct (List.filterMap f t.order)) (funext (demand?_text hd h hexprs))

theorem neededSize_renamed (h : t.Renamed ρ t') (root : String) (depth : Nat) :
    t'.neededSize (ρ.text root) depth = t.neededSize root depth := by
  have hsize : t'.recordedSize? (ρ.text root) depth = t.recordedSize? root depth :=
    h.sizes ⟨root, depth⟩
  rw [Tables.neededSize, hsize, Tables.neededSize]

theorem fill_text (h : t.Renamed ρ t') (type root : String) (below depth : Nat) :
    Agree (fun s s' => s' = ρ.steps s) (fill t type root below depth)
      (fill t' (ρ.text type) (ρ.text root) below depth) := by
  induction below generalizing depth with
  | zero =>
    rw [fill, fill, ρ.elementType?_text, neededSize_renamed h]
    cases elementType? type depth with
    | none => exact .error _ _
    | some element => exact .ok rfl
  | succ below ih =>
    rw [fill, fill, ρ.elementType?_text, neededSize_renamed h]
    cases elementType? type depth with
    | none => exact .error _ _
    | some element =>
      refine (ih (depth + 1)).bind fun inner inner' hinner => ?_
      subst hinner
      exact .ok rfl

theorem steps_demand (h : t.Renamed ρ t') (demand : Demand) :
    Agree (fun s s' => s' = ρ.steps s) (demand.steps t) ((ρ.demand demand).steps t') := by
  have hdepth : pointerDepth (ρ.demand demand).type = pointerDepth demand.type :=
    ρ.pointerDepth_text demand.type
  rw [Demand.steps, Demand.steps, hdepth]
  exact fill_text h demand.type demand.root _ 0

/-- The options for the generated code mention no symbols. -/
def PlainOptions (o : Options) : Prop :=
  Plain o.allocator.toList ∧ Plain o.releaser.toList ∧ Plain o.counterMark.toList

theorem counterName_plain (ho : PlainOptions o) (counter : Nat) :
    Plain (counterName o counter).toList := by
  rw [counterName, String.toList_append, Plain, List.mem_append, not_or]
  refine ⟨ho.2.2, fun hdollar => ?_⟩
  exact absurd (Index.isDigit_of_mem_repr (n := counter + 1) hdollar) (by decide)

theorem request_text (ho : PlainOptions o) (element : String) (count : Nat) :
    request o (ρ.text element) count = ρ.text (request o element count) := by
  have hcount : ρ.text (toString count) = toString count :=
    ρ.text_of_plain fun hdollar => absurd (Index.isDigit_of_mem_repr hdollar) (by decide)
  rw [request, request, ρ.text_append_mark (by decide),
    ρ.text_between (by decide), hcount,
    ρ.text_between (by decide), ρ.text_of_plain ho.1]

theorem elementText_text (ho : PlainOptions o) (place : String) (indices : List Nat) :
    elementText o (ρ.text place) indices = ρ.text (elementText o place indices) := by
  let accessors := String.join (indices.map fun counter => "[" ++ counterName o counter ++ "]")
  have hplain : Plain accessors.toList := by
    induction indices with
    | nil => exact List.not_mem_nil
    | cons counter indices ih =>
      have hcounter := counterName_plain ho counter
      simp only [accessors, List.map_cons, String.join_cons, String.toList_append, Plain,
        List.mem_append, not_or] at hcounter ih ⊢
      exact ⟨⟨⟨by decide, hcounter⟩, by decide⟩, ih⟩
  have hhead : ∀ c, accessors.toList.head? = some c → isNameChar c = false := by
    intro c hc
    cases indices with
    | nil => cases hc
    | cons counter indices =>
      simp only [accessors, List.map_cons, String.join_cons, String.toList_append] at hc
      cases hc
      decide
  rw [elementText, elementText, ρ.text_append (.of_head hhead), ρ.text_of_plain hplain]

mutual

theorem statement_step (ho : PlainOptions o) (place : String) (s : Step) :
    (ρ.step s).statement o (ρ.text place) = ρ.statement (s.statement o place) := by
  cases s with
  | allocate indices element count =>
    rw [step, Step.statement, elementText_text ho, request_text ho, Step.statement, statement]
  | loop counter bound body =>
    rw [step, Step.statement, statements_steps ho place body, Step.statement, statement,
      ρ.text_of_plain (counterName_plain ho counter)]

theorem statements_steps (ho : PlainOptions o) (place : String) (ss : List Step) :
    Step.statements o (ρ.text place) (ρ.steps ss) = ρ.statements (Step.statements o place ss) := by
  cases ss with
  | nil => rfl
  | cons s ss =>
    rw [steps, Step.statements, statement_step ho place s, statements_steps ho place ss,
      Step.statements, statements]

end

theorem statements_eq_map (ss : List Statement) : ρ.statements ss = ss.map ρ.statement := by
  induction ss with
  | nil => rfl
  | cons s ss ih => rw [statements, ih, List.map_cons]

/-- **The allocations of a renamed case are the renamed allocations.** -/
theorem allocations_renamed (hd : d.Plain) (ho : PlainOptions o) (h : t.Renamed ρ t')
    (hexprs : ρ.Carries ρ.expr exprs exprs') :
    Agree (fun ss ss' => ss' = ss.map ρ.statement) (Allocation.statements d o t exprs)
      (Allocation.statements d o t' exprs') := by
  rw [Allocation.statements, Allocation.statements, demands_renamed hd h hexprs]
  refine Agree.bind (Agree.mapM (l := List.map ρ.statement) fun demand _ => ?_) ?_
  · refine (steps_demand h demand).bind fun ss ss' hss => ?_
    subst hss
    refine .ok ?_
    rw [← statements_eq_map]
    exact statements_steps ho demand.place ss
  · rintro parts parts' rfl
    exact .ok List.map_flatten.symm

end Allocations

/-! ### Tests -/

section Tests

open TestSynth.TestFunction

variable {ρ} {d : Declarations} {o : Options} {t t' : Tables} {exprs exprs' : Table Expr}

/-- The literals are assigned in the order of the symbols, which a renaming may change. -/
theorem assignments_renamed (hd : d.Plain) (h : t.Renamed ρ t')
    (hexprs : ρ.Carries ρ.expr exprs exprs') :
    (assignments d t' exprs').Perm ((assignments d t exprs).map ρ.statement) := by
  rw [assignments, assignments, List.map_filterMap]
  refine (h.values.perm.filterMap _).trans ?_
  rw [List.filterMap_map]
  refine .of_eq (congrArg (List.filterMap · _) (funext fun entry => ?_))
  obtain ⟨symbol, literal⟩ := entry
  simp only [Function.comp, Prod.map, hexprs symbol, h.types symbol]
  cases exprs[symbol]? with
  | none => rfl
  | some e =>
    cases t.types[symbol]? with
    | none => rfl
    | some type =>
      simp only [Option.map_some, Option.bind_eq_bind, Option.bind_some, ρ.isPointerType_text hd,
        render_expr]
      split <;> rfl

theorem bodyInOrder_renamed (hd : d.Plain) (ho : PlainOptions o) (h : t.Renamed ρ t')
    {function : String} {parameters : List TypedName} (hfunction : Plain function.toList)
    (hparameters : ∀ p ∈ parameters, Plain p.name.toList ∧ Plain p.type.toList)
    (names : List String) :
    Agree (fun ss ss' => ss'.Perm (ss.map ρ.statement))
      (bodyInOrder d o function parameters names t)
      (bodyInOrder d o function parameters (names.map ρ.text) t') := by
  have hresolve := Outcome.Renamed.resolveEach hd h names
  rw [bodyInOrder, bodyInOrder]
  generalize d.resolveEach names t = outcome at hresolve
  generalize d.resolveEach (names.map ρ.text) t' = outcome' at hresolve
  cases hresolve with
  | error e e' u u' => exact .error _ _
  | @ok _ _ u u' _ hu =>
    have hexprs := ρ.carries_substituted hu
    refine (allocations_renamed hd ho hu hexprs).bind fun ss ss' hss => ?_
    subst hss
    have hdeclarations : (parameters.map fun p => Statement.declare p.type p.name).map ρ.statement =
        parameters.map fun p => Statement.declare p.type p.name := by
      rw [List.map_map]
      refine List.map_congr_left fun p hp => ?_
      rw [Function.comp, statement, ρ.text_of_plain (hparameters p hp).1,
        ρ.text_of_plain (hparameters p hp).2]
    have hcalls : [Statement.call function (parameters.map (·.name)), .call o.releaser []].map
          ρ.statement =
        [.call function (parameters.map (·.name)), .call o.releaser []] := by
      have hnames : (parameters.map (·.name)).map ρ.text = parameters.map (·.name) := by
        rw [List.map_map]
        exact List.map_congr_left fun p hp => ρ.text_of_plain (hparameters p hp).1
      simp only [List.map_cons, List.map_nil, statement, hnames, ρ.text_of_plain hfunction,
        ρ.text_of_plain ho.2.1]
    refine .ok ?_
    rw [List.map_append, List.map_append, List.map_append, hdeclarations, hcalls]
    exact (((List.Perm.refl _).append (.refl _)).append (assignments_renamed hd hu hexprs)).append
      (.refl _)

end Tests

end Renaming

end TestSynth
