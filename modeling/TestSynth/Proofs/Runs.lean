import TestSynth.Case.Binding
import Mathlib.Logic.Relation

/-!
# Runs

Whatever is read against the tables of a case, all that happens to the tables is a sequence of
moves: a value is bound, or a value is bound and a parameter is registered with it.  So an invariant
of the two moves is an invariant of everything, of readings that fail included.

* `Declarations.bindReading_spec` : what can happen when a reading is bound.
* `Runs.extends` : symbols keep what they were registered with, and nothing becomes a parameter
  without being registered.
* `Declarations.learned_resolve`, `Declarations.learned_bindText`,
  `Declarations.learned_resolveParameters` : everything is a run, of values that were read.
-/

namespace TestSynth

variable (d : Declarations)

/-! ### Bindings, case by case -/

namespace Value

/-- What was read of a text: the value, or the largest part of it that was complete. -/
def completed? : Except Failure Value → Option Value
  | .ok v => some v
  | .error failure => failure.completed

end Value

namespace Declarations

/-- The symbol that a value refers to is resolved first. -/
def follow (resolve : String → Tables → Outcome Unit) (v : Value) (t : Tables) : Outcome Unit :=
  v.referent?.elim (.ok (), t) fun symbol => resolve symbol t

/-- The outcomes of binding a reading. -/
inductive Binds (resolve : String → Tables → Outcome Unit) (t : Tables) :
    Except Value.Failure Value → Outcome Bound → Prop
  | nothing (e : ParseError) : Binds resolve t (.error ⟨none, e⟩) (.error e, t)
  | unresolved {reading : Except Value.Failure Value} {v : Value} {e : ParseError} {t' : Tables}
      (hread : Value.completed? reading = some v) (hfollow : follow resolve v t = (.error e, t')) :
      Binds resolve t reading (.error e, t')
  | partly {v : Value} {t' : Tables} (e : ParseError)
      (hfollow : follow resolve v t = (.ok (), t')) :
      Binds resolve t (.error ⟨some v, e⟩) (.error e, (v.bind d t').2)
  | wholly {v : Value} {t' : Tables} (hfollow : follow resolve v t = (.ok (), t')) :
      Binds resolve t (.ok v) (.ok (v.bind d t').1, (v.bind d t').2)

theorem bindReading_spec (resolve : String → Tables → Outcome Unit)
    (reading : Except Value.Failure Value) (t : Tables) :
    Binds d resolve t reading (d.bindReading resolve reading t) := by
  unfold bindReading
  split
  · exact .nothing _
  · split
    · next hfollow => exact .unresolved rfl hfollow
    · next hfollow => exact .partly _ hfollow
  · split
    · next hfollow => exact .unresolved rfl hfollow
    · next hfollow => exact .wholly hfollow

theorem bindReading_ok (resolve : String → Tables → Outcome Unit) (v : Value) (t : Tables) :
    d.bindReading resolve (.ok v) t = match follow resolve v t with
      | (.error e, t) => (.error e, t)
      | (.ok (), t) => (.ok (v.bind d t).1, (v.bind d t).2) := rfl

theorem bindReading_error (resolve : String → Tables → Outcome Unit) (failure : Value.Failure)
    (t : Tables) : ∃ e t', d.bindReading resolve (.error failure) t = (.error e, t') := by
  have hspec := d.bindReading_spec resolve (.error failure) t
  generalize d.bindReading resolve (.error failure) t = outcome at hspec
  cases hspec <;> exact ⟨_, _, rfl⟩

/-- Only the symbol that the value refers to matters for the outcome. -/
theorem bindReading_congr {resolve resolve' : String → Tables → Outcome Unit}
    {reading : Except Value.Failure Value} {t : Tables}
    (h : ∀ v, Value.completed? reading = some v → follow resolve v t = follow resolve' v t) :
    d.bindReading resolve reading t = d.bindReading resolve' reading t := by
  unfold bindReading
  split
  · rfl
  · next v e =>
    have := h v rfl
    unfold follow at this
    rw [this]
  · next v =>
    have := h v rfl
    unfold follow at this
    rw [this]

/-- A parameter is registered with the value that was bound for it. -/
def registered (name text : String) : Outcome Bound → Outcome Unit
  | (.error e, t) => (.error e, t)
  | (.ok b, t) => (.ok (), registerParameter name text b t)

/-- A symbol is settled, or it is a parameter whose value is bound while it is not pending. -/
theorem resolve_cases (limit : Nat) (pending : List String) (name : String) (t : Tables) :
    ((name ∈ pending → t.isRegistered name = true ∨ name ∉ t.parameters) ∧
      d.resolve limit pending name t = (.ok (), t)) ∨
    ∃ text, name ∈ pending ∧ t.isRegistered name = false ∧ t.parameters[name]? = some text ∧
      d.resolve limit pending name t =
        registered name text
          (d.bindReading (d.resolve limit (pending.erase name)) (Value.parse limit text) t) := by
  rw [resolve]
  by_cases hmem : name ∈ pending
  · rw [dif_pos hmem]
    cases hreg : t.isRegistered name with
    | true => exact .inl ⟨fun _ => .inl rfl, rfl⟩
    | false =>
      cases htext : t.parameters[name]? with
      | none =>
        refine .inl ⟨fun _ => .inr fun hin => ?_, rfl⟩
        rw [Std.ExtTreeMap.mem_iff_isSome_getElem?, htext] at hin
        cases hin
      | some text =>
        refine .inr ⟨text, hmem, rfl, rfl, ?_⟩
        simp only
        generalize d.bindReading _ _ t = outcome
        obtain ⟨outcome, t'⟩ := outcome
        cases outcome <;> rfl
  · rw [dif_neg hmem]
    exact .inl ⟨fun h => absurd h hmem, rfl⟩

theorem resolve_of_settled {t : Tables} {name : String}
    (h : t.isRegistered name = true ∨ name ∉ t.parameters) (limit : Nat) (pending : List String) :
    d.resolve limit pending name t = (.ok (), t) := by
  rcases d.resolve_cases limit pending name t with ⟨-, hresolve⟩ | ⟨text, -, hreg, htext, -⟩
  · exact hresolve
  · rcases h with h | h
    · rw [hreg] at h
      cases h
    · exact absurd (Table.mem_of_getElem? htext) h

theorem length_erase_lt {pending : List String} {name : String} (h : name ∈ pending) :
    (pending.erase name).length < pending.length := by
  have := List.length_pos_of_mem h
  rw [List.length_erase_of_mem h]
  omega

/-- With each reference that is followed there is one pending parameter less. -/
theorem pending_induction {motive : List String → Prop}
    (step : ∀ pending, (∀ name ∈ pending, motive (pending.erase name)) → motive pending)
    (pending : List String) : motive pending := by
  induction hn : pending.length using Nat.strongRecOn generalizing pending with
  | ind n ih =>
    exact step pending fun name hmem => ih _ (hn ▸ length_erase_lt hmem) _ rfl

/-! ### All parameters -/

/-- The order in which parameters are resolved: those with plain values come first. -/
def schedule (t : Tables) : List String :=
  let (compound, plain) := t.parameters.toList.partition fun (_, text) => isCompound text
  (plain ++ compound).map Prod.fst

theorem resolveParameters_eq (t : Tables) : d.resolveParameters t = d.resolveEach (schedule t) t :=
  rfl

theorem mem_schedule {t : Tables} {s : String} : s ∈ schedule t ↔ s ∈ t.parameters := by
  rw [← Std.ExtTreeMap.mem_keys, ← Std.ExtTreeMap.map_fst_toList_eq_keys]
  simp only [schedule, List.partition_eq_filter_filter, List.map_append, List.mem_append,
    List.mem_map, List.mem_filter]
  constructor
  · rintro (⟨entry, ⟨hin, -⟩, rfl⟩ | ⟨entry, ⟨hin, -⟩, rfl⟩) <;> exact ⟨entry, hin, rfl⟩
  · rintro ⟨entry, hin, rfl⟩
    by_cases hcompound : isCompound entry.2 = true
    · exact .inr ⟨entry, ⟨hin, hcompound⟩, rfl⟩
    · exact .inl ⟨entry, ⟨hin, by simpa using hcompound⟩, rfl⟩

end Declarations

namespace Value

/-- The element of a base that is written as `base`, with the tables after the base. -/
def elementOver (b : Bound) (index : Int) (base : Expr) (t : Tables) : Bound × Tables :=
  (⟨.index base index, none, b.slot.map Slot.element⟩,
    b.slot.elim t fun slot => t.recordSize slot (sizeForIndex index))

variable {b : Bound} {index : Int} {type : String} {t : Tables}

theorem bindElement_of_void
    (h : (d.typeOf? t b).any (fun declared => isVoidLike (d.resolveType declared)) = true) :
    bindElement d b index type t =
      elementOver b index (.cast (type ++ " *") b.expr)
        { t with
          types := b.symbol.elim t.types fun symbol => t.types.insert symbol (type ++ " *") } := by
  rw [bindElement, if_pos h, elementOver]
  cases b.slot <;> rfl

theorem bindElement_of_typed
    (h : (d.typeOf? t b).any (fun declared => isVoidLike (d.resolveType declared)) = false) :
    bindElement d b index type t = elementOver b index b.expr t := by
  rw [bindElement, if_neg (by rw [h]; decide), elementOver]
  cases b.slot <;> rfl

/-- The element of a base adds to the types and the sizes, and to nothing else. -/
theorem bindElement_eq (b : Bound) (index : Int) (type : String) (t : Tables) :
    ∃ base types, bindElement d b index type t = elementOver b index base { t with types } := by
  cases h : (d.typeOf? t b).any fun declared => isVoidLike (d.resolveType declared) with
  | false => exact ⟨_, t.types, bindElement_of_typed d h⟩
  | true => exact ⟨_, _, bindElement_of_void d h⟩

end Value

/-! ### What is kept -/

namespace Tables

theorem isRegistered_iff {t : Tables} {name : String} :
    t.isRegistered name = true ↔ name ∈ t.slots :=
  Std.ExtTreeMap.mem_iff_contains.symm

theorem register_of_fresh {t : Tables} {name : String} (h : t.isRegistered name = false)
    (text : String) (expr : Expr) (type? : Option String) (slot : Slot) :
    t.register name text expr type? slot =
      { t with
        parameters := t.parameters.insertIfNew name text
        types := type?.elim t.types fun type => t.types.insert name type
        exprs := t.exprs.insert name expr
        slots := t.slots.insert name slot
        order := t.order ++ [name] } := by
  rw [register, h]
  rfl

theorem register_of_registered {t : Tables} {name : String} (h : t.isRegistered name = true)
    (text : String) (expr : Expr) (type? : Option String) (slot : Slot) :
    t.register name text expr type? slot = t := by
  rw [register, if_pos h]

theorem isRegistered_register_iff {t : Tables} {name text : String} {expr : Expr}
    {type? : Option String} {slot : Slot} {s : String} :
    (t.register name text expr type? slot).isRegistered s = true ↔
      s = name ∨ t.isRegistered s = true := by
  cases h : t.isRegistered name with
  | true =>
    rw [register_of_registered h]
    exact ⟨.inr, fun hs => hs.elim (fun heq => heq ▸ h) id⟩
  | false =>
    rw [register_of_fresh h, isRegistered_iff, isRegistered_iff, Std.ExtTreeMap.mem_insert,
      Std.compare_eq_iff_eq, eq_comm]

theorem isRegistered_register (t : Tables) (name text : String) (expr : Expr)
    (type? : Option String) (slot : Slot) :
    (t.register name text expr type? slot).isRegistered name = true :=
  isRegistered_register_iff.2 (.inl rfl)

theorem sizes_register (t : Tables) (name text : String) (expr : Expr) (type? : Option String)
    (slot : Slot) : (t.register name text expr type? slot).sizes = t.sizes := by
  cases hreg : t.isRegistered name with
  | true => rw [register_of_registered hreg]
  | false => rw [register_of_fresh hreg]

end Tables

/-- What was known of the symbols of a case is still known, and new parameters are registered. -/
structure Extends (t t' : Tables) : Prop where
  slots : ∀ (s : String) (slot : Slot), t.slots[s]? = some slot → t'.slots[s]? = some slot
  parameters : ∀ (s text : String), t.parameters[s]? = some text → t'.parameters[s]? = some text
  order : t.order <+: t'.order
  new : ∀ s ∈ t'.parameters, s ∈ t.parameters ∨ t'.isRegistered s = true

namespace Extends

variable {d} {t t' t'' : Tables}

theorem refl (t : Tables) : Extends t t :=
  ⟨fun _ _ h => h, fun _ _ h => h, List.prefix_rfl, fun _ h => .inl h⟩

theorem isRegistered (h : Extends t t') {s : String} (hs : t.isRegistered s = true) :
    t'.isRegistered s = true := by
  rw [Tables.isRegistered_iff] at hs ⊢
  obtain ⟨slot, hslot⟩ := Table.exists_of_mem hs
  exact Table.mem_of_getElem? (h.slots s slot hslot)

theorem trans (h : Extends t t') (h' : Extends t' t'') : Extends t t'' where
  slots s slot hs := h'.slots s slot (h.slots s slot hs)
  parameters s text hs := h'.parameters s text (h.parameters s text hs)
  order := h.order.trans h'.order
  new s hs := by
    rcases h'.new s hs with hs | hs
    · exact (h.new s hs).imp_right h'.isRegistered
    · exact .inr hs

theorem parameters_eq (h : Extends t t') {s : String} (hs : t'.isRegistered s = false) :
    t'.parameters[s]? = t.parameters[s]? := by
  cases htext : t.parameters[s]? with
  | some text => exact h.parameters s text htext
  | none =>
    refine Std.ExtTreeMap.getElem?_eq_none fun hmem => ?_
    rcases h.new s hmem with hmem | hreg
    · rw [Std.ExtTreeMap.mem_iff_isSome_getElem?, htext] at hmem
      cases hmem
    · rw [hs] at hreg
      cases hreg

theorem register (t : Tables) (name text : String) (expr : Expr) (type? : Option String)
    (slot : Slot) : Extends t (t.register name text expr type? slot) := by
  cases h : t.isRegistered name with
  | true =>
    rw [Tables.register_of_registered h]
    exact refl t
  | false =>
    have hfresh : name ∉ t.slots := by
      rw [← Tables.isRegistered_iff, h]
      exact Bool.false_ne_true
    rw [Tables.register_of_fresh h]
    constructor
    case slots =>
      intro s slot hs
      -- a symbol that has a slot is not the fresh one
      have hne : name ≠ s := by
        rintro rfl
        exact hfresh (Table.mem_of_getElem? hs)
      simpa [Std.ExtTreeMap.getElem?_insert, hne] using hs
    case parameters =>
      intro s source hs
      rw [Std.ExtTreeMap.getElem?_insertIfNew, if_neg, hs]
      rintro ⟨heq, hnot⟩
      rw [Std.compare_eq_iff_eq.1 heq] at hnot
      exact hnot (Table.mem_of_getElem? hs)
    case order => exact List.prefix_append _ _
    case new =>
      intro s hs
      rcases Std.ExtTreeMap.mem_insertIfNew.1 hs with heq | hs
      · rw [Tables.isRegistered_iff, ← Std.compare_eq_iff_eq.1 heq]
        exact .inr Std.ExtTreeMap.mem_insert_self
      · exact .inl hs

theorem of_eq (hslots : t'.slots = t.slots) (hparameters : t'.parameters = t.parameters)
    (horder : t'.order = t.order) : Extends t t' where
  slots s slot hs := by rw [hslots, hs]
  parameters s text hs := by rw [hparameters, hs]
  order := ⟨[], by rw [List.append_nil, horder]⟩
  new s hs := .inl (by rwa [hparameters] at hs)

theorem bindElement (b : Bound) (index : Int) (type : String) (t : Tables) :
    Extends t (Value.bindElement d b index type t).2 := by
  obtain ⟨base, types, h⟩ := Value.bindElement_eq d b index type t
  rw [h, Value.elementOver]
  cases b.slot <;> exact of_eq rfl rfl rfl

theorem bind (v : Value) (t : Tables) : Extends t (v.bind d t).2 := by
  induction v generalizing t with
  | atom text => exact refl t
  | reference symbol text => exact refl t
  | element base index type fields ih =>
    have h := (ih t).trans (bindElement (d := d) (base.bind d t).1 index type (base.bind d t).2)
    simp only [Value.bind]
    split <;> exact h
  | region inner fields ih =>
    simp only [Value.bind]
    split <;> exact ih t
  | definition name type inner source ih => exact (ih t).trans (register ..)

end Extends

/-! ### Runs -/

/-- One thing that happens to the tables. -/
inductive Move : Tables → Tables → Prop
  | bind (v : Value) (t : Tables) : Move t (v.bind d t).2
  | parameter (name text : String) (v : Value) (t : Tables) :
    Move t (Declarations.registerParameter name text (v.bind d t).1 (v.bind d t).2)

/-- What happens to the tables in the end. -/
def Runs : Tables → Tables → Prop := Relation.ReflTransGen (Move d)

/-- **Runs only add to what is known of the symbols.** -/
theorem Runs.extends {d : Declarations} {t t' : Tables} (h : Runs d t t') : Extends t t' := by
  induction h with
  | refl => exact .refl t
  | tail _ hmove ih =>
    cases hmove with
    | bind v => exact ih.trans (.bind v _)
    | parameter name text v => exact (ih.trans (.bind v _)).trans (.register ..)

/-- A move that binds one of the values in `read`, and registers nothing but a parameter with it. -/
inductive Learns (read : Value → Prop) : Tables → Tables → Prop
  | bind {v : Value} (hv : read v) (t : Tables) : Learns read t (v.bind d t).2
  | parameter {name : String} {v : Value} {t : Tables} (hv : read v) (hname : name ∈ t.parameters)
      (text : String) :
    Learns read t (Declarations.registerParameter name text (v.bind d t).1 (v.bind d t).2)

/-- What the tables learn from some values. -/
def Learned (read : Value → Prop) : Tables → Tables → Prop := Relation.ReflTransGen (Learns d read)

/-- All that can be read of the parameters that are still to be registered is in `read`. -/
def Tables.Offers (limit : Nat) (t : Tables) (read : Value → Prop) : Prop :=
  ∀ (name text : String) (v : Value), t.isRegistered name = false →
    t.parameters[name]? = some text → Value.completed? (Value.parse limit text) = some v → read v

section Learned

variable {d} {limit : Nat} {read : Value → Prop} {t t' : Tables}

theorem Learned.runs (h : Learned d read t t') : Runs d t t' := by
  refine Relation.ReflTransGen.mono (fun t t' hlearns => ?_) _ _ h
  cases hlearns with
  | bind => exact .bind _ _
  | parameter => exact .parameter _ _ _ _

theorem Learned.mono {read' : Value → Prop} (h : Learned d read t t')
    (hle : ∀ v, read v → read' v) : Learned d read' t t' := by
  refine Relation.ReflTransGen.mono (fun t t' hlearns => ?_) _ _ h
  cases hlearns with
  | bind hv => exact .bind (hle _ hv) _
  | parameter hv hname text => exact .parameter (hle _ hv) hname text

theorem Tables.offers_any (limit : Nat) (t : Tables) : t.Offers limit fun _ => True :=
  fun _ _ _ _ _ _ => trivial

theorem Tables.Offers.extends (h : t.Offers limit read) (hext : Extends t t') :
    t'.Offers limit read := by
  intro name text v hreg htext hv
  refine h name text v ?_ (by rw [← hext.parameters_eq hreg, htext]) hv
  cases hold : t.isRegistered name with
  | false => rfl
  | true =>
    rw [hext.isRegistered hold] at hreg
    cases hreg

namespace Declarations

theorem learned_follow {resolve : String → Tables → Outcome Unit}
    (hresolve : ∀ symbol, Learned d read t (resolve symbol t).2) (v : Value) :
    Learned d read t (follow resolve v t).2 := by
  unfold follow
  cases v.referent? with
  | none => exact .refl
  | some symbol => exact hresolve symbol

/-- What is learned from a reading that was bound is learned from its value in the end. -/
theorem learned_bindReading {resolve : String → Tables → Outcome Unit}
    (hresolve : ∀ symbol, Learned d read t (resolve symbol t).2)
    {reading : Except Value.Failure Value}
    (hread : ∀ v, Value.completed? reading = some v → read v) {outcome : Except ParseError Bound}
    (h : d.bindReading resolve reading t = (outcome, t')) :
    Learned d read t t' ∧ ∀ b, outcome = .ok b →
      ∃ (v : Value) (u : Tables), read v ∧ Learned d read t u ∧ v.bind d u = (b, t') := by
  have hspec := d.bindReading_spec resolve reading t
  rw [h] at hspec
  have hfollowed {v : Value} {outcome : Outcome Unit} (hfollow : follow resolve v t = outcome) :
      Learned d read t outcome.2 := hfollow ▸ learned_follow hresolve v
  cases hspec with
  | nothing e => exact ⟨.refl, nofun⟩
  | unresolved _ hfollow => exact ⟨hfollowed hfollow, nofun⟩
  | partly e hfollow => exact ⟨.tail (hfollowed hfollow) (.bind (hread _ rfl) _), nofun⟩
  | wholly hfollow =>
    refine ⟨.tail (hfollowed hfollow) (.bind (hread _ rfl) _), fun b hb => ?_⟩
    cases hb
    exact ⟨_, _, hread _ rfl, hfollowed hfollow, rfl⟩

/-- **Resolution is a run**, whether it fails or not, and all that it binds was read of the
parameters. -/
theorem learned_resolve (pending : List String) (name : String) (h : t.Offers limit read) :
    Learned d read t (d.resolve limit pending name t).2 := by
  induction pending using pending_induction generalizing name t with
  | step pending ih =>
    rcases d.resolve_cases limit pending name t with ⟨-, hsettled⟩ | ⟨text, hmem, hreg, htext, heq⟩
    · rw [hsettled]
      exact .refl
    · rw [heq]
      -- what the value refers to is resolved by a run, and the last move registers the parameter
      cases hbind : d.bindReading (d.resolve limit (pending.erase name)) (Value.parse limit text) t
        with
      | mk outcome t' =>
        have ⟨hlearned, hbound⟩ := learned_bindReading (fun symbol => ih name hmem symbol h)
          (fun v => h name text v hreg htext) hbind
        cases outcome with
        | error e => exact hlearned
        | ok b =>
          obtain ⟨v, u, hv, hlearned, hu⟩ := hbound b rfl
          have hname : name ∈ u.parameters :=
            Table.mem_of_getElem? (hlearned.runs.extends.parameters name text htext)
          have hmove := Learns.parameter (d := d) hv hname text
          rw [hu] at hmove
          exact .tail hlearned hmove

theorem learned_bindText {text : String} (h : t.Offers limit read)
    (htext : ∀ v, Value.completed? (Value.parse limit text) = some v → read v) :
    Learned d read t (d.bindText limit text t).2 :=
  (learned_bindReading (fun symbol => learned_resolve _ symbol h) htext rfl).1

theorem learned_resolveEach (names : List String) (h : t.Offers Value.defaultLimit read) :
    Learned d read t (d.resolveEach names t).2 := by
  induction names generalizing t with
  | nil => exact .refl
  | cons name names ih =>
    have hlearned := learned_resolve (d := d) t.parameters.keys name h
    unfold resolveEach
    split
    · next hresolve => rw [hresolve] at hlearned; exact hlearned
    · next hresolve =>
      rw [hresolve] at hlearned
      exact hlearned.trans (ih (h.extends hlearned.runs.extends))

theorem learned_resolveParameters (h : t.Offers Value.defaultLimit read) :
    Learned d read t (d.resolveParameters t).2 := by
  rw [resolveParameters_eq]
  exact learned_resolveEach _ h

theorem runs_resolve (limit : Nat) (pending : List String) (name : String) (t : Tables) :
    Runs d t (d.resolve limit pending name t).2 :=
  (learned_resolve pending name (t.offers_any limit)).runs

theorem runs_bindText (limit : Nat) (text : String) (t : Tables) :
    Runs d t (d.bindText limit text t).2 :=
  (learned_bindText (t.offers_any limit) fun _ _ => trivial).runs

theorem runs_resolveEach (names : List String) (t : Tables) :
    Runs d t (d.resolveEach names t).2 :=
  (learned_resolveEach names (t.offers_any _)).runs

theorem runs_resolveParameters (t : Tables) : Runs d t (d.resolveParameters t).2 :=
  (learned_resolveParameters (t.offers_any _)).runs

/-- What is left of the tables by a resolution, whatever its outcome, is the end of a run. -/
theorem runs_of_resolveParameters {outcome : Except ParseError Unit}
    (h : d.resolveParameters t = (outcome, t')) : Runs d t t' := by
  have := runs_resolveParameters (d := d) t
  rwa [h] at this

end Declarations

end Learned

end TestSynth
