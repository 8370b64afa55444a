import TestSynth.Proofs.Renaming.Reading
import TestSynth.Proofs.Renaming.Types
import TestSynth.Proofs.Runs

/-!
# Binding renamed values

A renamed value that is bound against renamed tables denotes what the value denotes, renamed, and
leaves renamed tables behind.  So parameters are resolved to the same end before as after a
renaming, as long as they are resolved in the same order.

* `Tables.Renamed` : tables that say the same of renamed symbols.
* `Tables.Renamed.bind` : what a renamed value denotes.
* `Outcome.Renamed.resolveEach` : renamed parameters are resolved in the same way.
-/

namespace TestSynth

open Text (isNameChar Plain)

namespace Renaming

variable (ρ : Renaming)

/-- `m'` says of each renamed name what `m` says of the name, up to `f`. -/
def Carries {α β : Type} (f : α → β) (m : Table α) (m' : Table β) : Prop :=
  ∀ name : String, m'[ρ.text name]? = m[name]?.map f

namespace Carries

variable {ρ} {α β : Type} {f : α → β} {m : Table α} {m' : Table β}

theorem mem_iff (h : ρ.Carries f m m') {name : String} : ρ.text name ∈ m' ↔ name ∈ m := by
  rw [Std.ExtTreeMap.mem_iff_isSome_getElem?, h, Option.isSome_map,
    ← Std.ExtTreeMap.mem_iff_isSome_getElem?]

theorem contains_eq (h : ρ.Carries f m m') (name : String) :
    m'.contains (ρ.text name) = m.contains name := by
  rw [Bool.eq_iff_iff, ← Std.ExtTreeMap.mem_iff_contains, ← Std.ExtTreeMap.mem_iff_contains,
    h.mem_iff]

theorem insert (h : ρ.Carries f m m') (name : String) (value : α) :
    ρ.Carries f (m.insert name value) (m'.insert (ρ.text name) (f value)) := by
  intro other
  simp only [Std.ExtTreeMap.getElem?_insert, Std.compare_eq_iff_eq, ρ.text_injective.eq_iff]
  split
  · rfl
  · exact h other

theorem insertIfNew (h : ρ.Carries f m m') (name : String) (value : α) :
    ρ.Carries f (m.insertIfNew name value) (m'.insertIfNew (ρ.text name) (f value)) := by
  intro other
  simp only [Std.ExtTreeMap.getElem?_insertIfNew, Std.compare_eq_iff_eq, ρ.text_injective.eq_iff,
    h.mem_iff]
  split
  · rfl
  · exact h other

end Carries

variable {d : Declarations}

theorem variableType?_text (h : d.Plain) (name : String) :
    d.variableType? (ρ.text name) = (d.variableType? name).map ρ.text := by
  rw [Declarations.variableType?, ρ.getElem?_text (.of_getElem? fun _ _ hg => (h.global hg).1),
    Declarations.variableType?]
  cases hglobal : d.globals[name]? with
  | none => rfl
  | some type => exact congrArg some (ρ.text_of_plain (h.global hglobal).2).symm

end Renaming

/-! ### Renamed tables -/

/-- Tables that say of renamed symbols what `t` says of the symbols. -/
structure Tables.Renamed (ρ : Renaming) (t t' : Tables) : Prop where
  parameters : ρ.Carries ρ.text t.parameters t'.parameters
  values : ρ.Carries ρ.text t.values t'.values
  types : ρ.Carries ρ.text t.types t'.types
  exprs : ρ.Carries ρ.expr t.exprs t'.exprs
  slots : ρ.Carries ρ.slot t.slots t'.slots
  order : t'.order = t.order.map ρ.text
  sizes (slot : Slot) : t'.sizes[ρ.slot slot]? = t.sizes[slot]?

/-- A bound value with the tables after it, and both renamed. -/
def Bound.Renamed (ρ : Renaming) (x x' : Bound × Tables) : Prop :=
  x'.1 = ρ.bound x.1 ∧ Tables.Renamed ρ x.2 x'.2

namespace Tables.Renamed

variable {ρ : Renaming} {d : Declarations} {t t' : Tables}

theorem isRegistered_eq (h : t.Renamed ρ t') (name : String) :
    t'.isRegistered (ρ.text name) = t.isRegistered name :=
  h.slots.contains_eq name

theorem insertType (h : t.Renamed ρ t') (symbol type : String) :
    Renamed ρ { t with types := t.types.insert symbol type }
      { t' with types := t'.types.insert (ρ.text symbol) (ρ.text type) } :=
  { h with types := h.types.insert symbol type }

theorem recordSize (h : t.Renamed ρ t') (slot : Slot) (size : Nat) :
    Renamed ρ (t.recordSize slot size) (t'.recordSize (ρ.slot slot) size) := by
  refine { h with sizes := fun other => ?_ }
  have hinj : ρ.slot slot = ρ.slot other ↔ slot = other := by
    obtain ⟨root, depth⟩ := slot
    obtain ⟨root', depth'⟩ := other
    simp only [Renaming.slot, Slot.mk.injEq, ρ.text_injective.eq_iff]
  simp only [Tables.recordSize, Std.ExtTreeMap.getElem?_insert, Std.compare_eq_iff_eq, hinj,
    h.sizes]

theorem register (h : t.Renamed ρ t') (name text : String) (e : Expr) (type? : Option String)
    (slot : Slot) :
    Renamed ρ (t.register name text e type? slot)
      (t'.register (ρ.text name) (ρ.text text) (ρ.expr e) (type?.map ρ.text) (ρ.slot slot)) := by
  have hreg := h.isRegistered_eq name
  cases hfresh : t.isRegistered name with
  | true =>
    rwa [register_of_registered hfresh, register_of_registered (hreg.trans hfresh)]
  | false =>
    rw [register_of_fresh hfresh, register_of_fresh (hreg.trans hfresh)]
    constructor
    case parameters => exact h.parameters.insertIfNew name text
    case values => exact h.values
    case types =>
      cases type? with
      | none => exact h.types
      | some type => exact h.types.insert name type
    case exprs => exact h.exprs.insert name e
    case slots => exact h.slots.insert name slot
    case order => rw [h.order, List.map_append, List.map_singleton]
    case sizes => exact h.sizes

/-! ### Binding values -/

theorem symbolType? (h : t.Renamed ρ t') (b : Bound) :
    ((ρ.bound b).symbol.bind fun symbol => t'.types[symbol]?) =
      (b.symbol.bind fun symbol => t.types[symbol]?).map ρ.text := by
  rw [Renaming.bound]
  cases b.symbol with
  | none => rfl
  | some symbol => exact h.types symbol

theorem typeOf? (hd : d.Plain) (h : t.Renamed ρ t') (b : Bound) :
    d.typeOf? t' (ρ.bound b) = (d.typeOf? t b).map ρ.text := by
  have hname : ((ρ.bound b).expr.name?.bind d.variableType?) =
      (b.expr.name?.bind d.variableType?).map ρ.text := by
    rw [Renaming.bound, ρ.name?_expr]
    cases b.expr.name? with
    | none => rfl
    | some name => exact ρ.variableType?_text hd name
  rw [Declarations.typeOf?, h.symbolType?, hname, ← Option.map_or, Declarations.typeOf?]

theorem bindElement (hd : d.Plain) (h : t.Renamed ρ t') (b : Bound) (index : Int) (type : String) :
    Bound.Renamed ρ (Value.bindElement d b index type t)
      (Value.bindElement d (ρ.bound b) index (ρ.text type) t') := by
  have hvoid :
      (d.typeOf? t' (ρ.bound b)).any (fun declared => isVoidLike (d.resolveType declared)) =
        (d.typeOf? t b).any fun declared => isVoidLike (d.resolveType declared) := by
    rw [h.typeOf? hd]
    exact ρ.any_map_text (fun s => by rw [ρ.resolveType_text hd, ρ.isVoidLike_text]) _
  have helement (base : Expr) {u u' : Tables} (hu : u.Renamed ρ u') :
      Bound.Renamed ρ (Value.elementOver b index base u)
        (Value.elementOver (ρ.bound b) index (ρ.expr base) u') := by
    rw [Value.elementOver, Value.elementOver, Renaming.bound]
    cases b.slot with
    | none => exact ⟨rfl, hu⟩
    | some slot => exact ⟨rfl, hu.recordSize slot _⟩
  cases hany : (d.typeOf? t b).any fun declared => isVoidLike (d.resolveType declared) with
  | false =>
    rw [Value.bindElement_of_typed d hany, Value.bindElement_of_typed d (hvoid.trans hany)]
    exact helement b.expr h
  | true =>
    have hnarrowed : ρ.text (type ++ " *") = ρ.text type ++ " *" :=
      ρ.text_append_mark (by decide) type
    rw [Value.bindElement_of_void d hany, Value.bindElement_of_void d (hvoid.trans hany),
      ← hnarrowed]
    refine helement (.cast (type ++ " *") b.expr) ?_
    rw [Renaming.bound]
    cases b.symbol with
    | none => exact h
    | some symbol => exact h.insertType symbol _

/-- **A renamed value denotes what the value denotes, renamed.** -/
theorem bind (hd : d.Plain) (h : t.Renamed ρ t') (v : Value) :
    Bound.Renamed ρ (v.bind d t) ((ρ.value v).bind d t') := by
  have hempty (fields : List String) : (fields.map ρ.text).isEmpty = fields.isEmpty := by
    cases fields <;> rfl
  induction v generalizing t t' with
  | atom text => exact ⟨rfl, h⟩
  | reference symbol text =>
    refine ⟨?_, h⟩
    rw [Value.bind, Renaming.value, Value.bind, h.slots, Renaming.bound]
    rfl
  | element base index type fields ih =>
    obtain ⟨hbase, htables⟩ := ih h
    have helement := htables.bindElement hd (base.bind d t).1 index type
    rw [← hbase] at helement
    obtain ⟨hbound, htables⟩ := helement
    have hstar : (ρ.text type).toList.contains '*' = type.toList.contains '*' := by
      rw [Bool.eq_iff_iff, List.contains_iff_mem, List.contains_iff_mem, ρ.toList_text,
        ρ.mem_chars (by decide)]
    simp only [Value.bind, Renaming.value, hempty]
    split
    · exact ⟨hbound, htables⟩
    · refine ⟨?_, htables⟩
      dsimp only
      rw [hbound, hstar]
      exact congrArg (Bound.mk · none none) (ρ.takeFields_expr hd _ _ (some type) fields)
  | region inner fields ih =>
    obtain ⟨hinner, htables⟩ := ih h
    simp only [Value.bind, Renaming.value, hempty]
    split
    · exact ⟨hinner, htables⟩
    · refine ⟨?_, htables⟩
      dsimp only
      rw [hinner, htables.typeOf? hd, ρ.any_map_text (ρ.isPointerType_text hd)]
      exact congrArg (Bound.mk · none none) (ρ.takeFields_expr hd _ _ _ fields)
  | definition name type inner source ih =>
    obtain ⟨hinner, htables⟩ := ih h
    have hexpr : ((ρ.value inner).bind d t').1.expr = ρ.expr (inner.bind d t).1.expr := by
      rw [hinner]
      rfl
    have hslot : ((ρ.value inner).bind d t').1.slot.getD (.ofRoot (ρ.text name)) =
        ρ.slot ((inner.bind d t).1.slot.getD (.ofRoot name)) := by
      rw [hinner, Renaming.bound]
      cases (inner.bind d t).1.slot <;> rfl
    have hreg := htables.register name source (inner.bind d t).1.expr (some (d.resolveType type))
      ((inner.bind d t).1.slot.getD (.ofRoot name))
    rw [Option.map_some, ← ρ.resolveType_text hd, ← hslot, ← hexpr] at hreg
    refine ⟨?_, hreg⟩
    simp only [Value.bind, Renaming.value]
    rw [hreg.slots name, hexpr]
    rfl

/-! ### Resolving parameters -/

theorem registerParameter (h : t.Renamed ρ t') (name text : String) (b : Bound) :
    Renamed ρ (Declarations.registerParameter name text b t)
      (Declarations.registerParameter (ρ.text name) (ρ.text text) (ρ.bound b) t') := by
  have htype : (if t'.types.contains (ρ.text name) then none
        else (ρ.bound b).symbol.bind fun symbol => t'.types[symbol]?) =
      (if t.types.contains name then none
        else b.symbol.bind fun symbol => t.types[symbol]?).map ρ.text := by
    rw [h.types.contains_eq, h.symbolType?]
    split <;> rfl
  have hslot : (ρ.bound b).slot.getD (.ofRoot (ρ.text name)) =
      ρ.slot (b.slot.getD (.ofRoot name)) := by
    rw [Renaming.bound]
    cases b.slot <;> rfl
  rw [Declarations.registerParameter, Declarations.registerParameter, htype, hslot]
  exact h.register name text b.expr _ _

end Tables.Renamed

/-- Two outcomes: both are failures, or the second is what the first is, renamed. -/
inductive Outcome.Renamed (ρ : Renaming) {α : Type} (P : α → α → Prop) :
    Outcome α → Outcome α → Prop
  | error (e e' : ParseError) (t t' : Tables) : Renamed ρ P (.error e, t) (.error e', t')
  | ok {a a' : α} {t t' : Tables} (h : P a a') (ht : t.Renamed ρ t') :
    Renamed ρ P (.ok a, t) (.ok a', t')

namespace Outcome.Renamed

variable {ρ : Renaming} {d : Declarations} {t t' : Tables}

theorem referent?_value (v : Value) : (ρ.value v).referent? = v.referent?.map ρ.text := by
  induction v with
  | atom text => rfl
  | reference symbol text => rfl
  | element base index type fields ih => exact ih
  | region inner fields ih => exact ih
  | definition name type inner source ih => exact ih

theorem bindReading (hd : d.Plain) (h : t.Renamed ρ t')
    {resolve resolve' : String → Tables → Outcome Unit}
    (hresolve : ∀ symbol,
      Renamed ρ (fun _ _ => True) (resolve symbol t) (resolve' (ρ.text symbol) t'))
    {reading reading' : Except Value.Failure Value}
    (hreading : Agree (fun v v' => v' = ρ.value v) reading reading') :
    Renamed ρ (fun b b' => b' = ρ.bound b) (d.bindReading resolve reading t)
      (d.bindReading resolve' reading' t') := by
  cases hreading with
  | error failure failure' =>
    obtain ⟨e, u, heq⟩ := d.bindReading_error resolve failure t
    obtain ⟨e', u', heq'⟩ := d.bindReading_error resolve' failure' t'
    rw [heq, heq']
    exact .error _ _ _ _
  | @ok v v' hv =>
    subst hv
    have hfollow : Renamed ρ (fun _ _ => True) (Declarations.follow resolve v t)
        (Declarations.follow resolve' (ρ.value v) t') := by
      rw [Declarations.follow, Declarations.follow, referent?_value]
      cases v.referent? with
      | none => exact .ok trivial h
      | some symbol => exact hresolve symbol
    rw [d.bindReading_ok, d.bindReading_ok]
    generalize Declarations.follow resolve v t = followed at hfollow
    generalize Declarations.follow resolve' (ρ.value v) t' = followed' at hfollow
    cases hfollow with
    | error e e' u u' => exact .error _ _ _ _
    | ok _ hu =>
      obtain ⟨hbound, htables⟩ := hu.bind hd v
      exact .ok hbound htables

theorem registered {outcome outcome' : Outcome Bound}
    (h : Renamed ρ (fun b b' => b' = ρ.bound b) outcome outcome') (name text : String) :
    Renamed ρ (fun _ _ => True) (Declarations.registered name text outcome)
      (Declarations.registered (ρ.text name) (ρ.text text) outcome') := by
  cases h with
  | error e e' u u' => exact .error _ _ _ _
  | ok hb hu =>
    subst hb
    exact .ok trivial (hu.registerParameter name text _)

/-- **A renamed parameter is resolved in the same way**, whatever the order of the pending ones. -/
theorem resolve (hd : d.Plain) (limit : Nat) {pending pending' : List String}
    (hpending : ∀ s, ρ.text s ∈ pending' ↔ s ∈ pending) (hnodup : pending.Nodup)
    (hnodup' : pending'.Nodup) (h : t.Renamed ρ t') (name : String) :
    Renamed ρ (fun _ _ => True) (d.resolve limit pending name t)
      (d.resolve limit pending' (ρ.text name) t') := by
  induction pending using Declarations.pending_induction generalizing pending' name t t' with
  | step pending ih =>
    have hin : ρ.text name ∈ t'.parameters ↔ name ∈ t.parameters := h.parameters.mem_iff
    have hregs := h.isRegistered_eq name
    rcases d.resolve_cases limit pending name t with
      ⟨hsettled, heq⟩ | ⟨text, hmem, hreg, htext, heq⟩
    · rcases d.resolve_cases limit pending' (ρ.text name) t' with
        ⟨-, heq'⟩ | ⟨text', hmem', hreg', htext', -⟩
      · rw [heq, heq']
        exact .ok trivial h
      · -- the symbol would not be settled before the renaming either
        rcases hsettled ((hpending name).1 hmem') with hreg | hnot
        · rw [hregs, hreg] at hreg'
          cases hreg'
        · exact absurd (hin.1 (Table.mem_of_getElem? htext')) hnot
    · rcases d.resolve_cases limit pending' (ρ.text name) t' with
        ⟨hsettled', -⟩ | ⟨text', hmem', -, htext', heq'⟩
      · rcases hsettled' ((hpending name).2 hmem) with hreg' | hnot
        · rw [hregs, hreg] at hreg'
          cases hreg'
        · exact absurd (hin.2 (Table.mem_of_getElem? htext)) hnot
      · rw [h.parameters, htext, Option.map_some, Option.some.injEq] at htext'
        subst htext'
        rw [heq, heq']
        refine registered (bindReading hd h (fun symbol => ?_) (ρ.parse_text limit text)) name text
        refine ih name hmem (fun s => ?_) (hnodup.erase name) (hnodup'.erase _) h symbol
        rw [hnodup.mem_erase_iff, hnodup'.mem_erase_iff, ρ.text_injective.ne_iff, hpending]

/-- **Renamed parameters are resolved in the same way**, if they are resolved in the same order. -/
theorem resolveEach (hd : d.Plain) (h : t.Renamed ρ t') (names : List String) :
    Renamed ρ (fun _ _ => True) (d.resolveEach names t)
      (d.resolveEach (names.map ρ.text) t') := by
  induction names generalizing t t' with
  | nil => exact .ok trivial h
  | cons name names ih =>
    have hkeys (s : String) : ρ.text s ∈ t'.parameters.keys ↔ s ∈ t.parameters.keys := by
      rw [Std.ExtTreeMap.mem_keys, Std.ExtTreeMap.mem_keys, h.parameters.mem_iff]
    have hname := resolve hd Value.defaultLimit hkeys Std.ExtTreeMap.nodup_keys
      Std.ExtTreeMap.nodup_keys h name
    rw [List.map_cons, Declarations.resolveEach, Declarations.resolveEach]
    generalize d.resolve _ t.parameters.keys name t = outcome at hname
    generalize d.resolve _ t'.parameters.keys (ρ.text name) t' = outcome' at hname
    cases hname with
    | error e e' u u' => exact .error _ _ _ _
    | ok _ hu => exact ih hu

end Outcome.Renamed

end TestSynth
