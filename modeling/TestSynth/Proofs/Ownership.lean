import TestSynth.Case.Intake
import TestSynth.Proofs.Runs

/-!
# Ownership of storage

Every slot leads back to the symbol that owns its storage: the root of a slot is registered with the
slot at depth zero, before all symbols whose slots it is the root of.  `Tables.Owned` says so of
some tables, together with what ties the tables to each other.

* `Tables.Owned.register` : a registration keeps this, if the slot has an owner or is of its own.
* `Tables.Owned.bind` : so does the binding of a value, and what it denotes has an owner.
* `Tables.owned_after` : after any sequence of operations on a case, every slot has an owner.
-/

namespace TestSynth

variable {d : Declarations}

namespace Tables

/-! ### The invariant -/

/-- `root` is registered as the owner of its storage. -/
def Owns (t : Tables) (root : String) : Prop := t.slots[root]? = some (.ofRoot root)

/-- All slots have owners, and all tables know the same symbols. -/
structure Owned (t : Tables) : Prop where
  /-- The owner of a registered symbol's slot was registered no later than the symbol. -/
  root : ∀ (s : String) (slot : Slot), t.slots[s]? = some slot →
    t.Owns slot.root ∧ t.order.idxOf slot.root ≤ t.order.idxOf s
  /-- Only slots with owners were indexed. -/
  sized : ∀ slot ∈ t.sizes, t.Owns slot.root
  exprs : ∀ s, s ∈ t.exprs ↔ s ∈ t.slots
  order : ∀ s, s ∈ t.order ↔ s ∈ t.slots
  nodup : t.order.Nodup
  parameters : ∀ s ∈ t.slots, s ∈ t.parameters

/-- The slot of a bound value has an owner, if there is one. -/
def Houses (t : Tables) (b : Bound) : Prop := ∀ slot, b.slot = some slot → t.Owns slot.root

variable {t t' : Tables}

theorem Owns.mem {root : String} (h : t.Owns root) : root ∈ t.slots := Table.mem_of_getElem? h

theorem Owns.extends {root : String} (h : t.Owns root) (ht : Extends t t') : t'.Owns root :=
  ht.slots _ _ h

theorem Houses.of_none {b : Bound} (h : b.slot = none) : t.Houses b := by
  intro slot hslot
  rw [h] at hslot
  cases hslot

/-- The slot of a bound value, or one of its own, has an owner as soon as it is registered. -/
theorem Houses.getD {b : Bound} (h : t.Houses b) (name : String) :
    t.Owns (b.slot.getD (.ofRoot name)).root ∨ b.slot.getD (.ofRoot name) = .ofRoot name := by
  cases hslot : b.slot with
  | none => exact .inr rfl
  | some slot => exact .inl (h slot hslot)

namespace Owned

/-! ### Single steps -/

theorem intake (d : Declarations) (c : Case) : (c.intake d).Owned := by
  constructor
  case root => intro s slot h; simp [Case.intake] at h
  case sized => intro slot h; simp [Case.intake] at h
  case exprs => simp [Case.intake]
  case order => simp [Case.intake]
  case nodup => exact List.nodup_nil
  case parameters => intro s h; simp [Case.intake] at h

theorem withTypes (h : t.Owned) (types : Table String) : ({ t with types } : Tables).Owned :=
  ⟨h.root, h.sized, h.exprs, h.order, h.nodup, h.parameters⟩

theorem recordSize (h : t.Owned) {slot : Slot} (hslot : t.Owns slot.root) (size : Nat) :
    (t.recordSize slot size).Owned where
  root := h.root
  sized := by
    intro slot' hmem
    rcases Std.ExtTreeMap.mem_insert.1 hmem with heq | hmem
    · rw [← Std.compare_eq_iff_eq.1 heq]
      exact hslot
    · exact h.sized slot' hmem
  exprs := h.exprs
  order := h.order
  nodup := h.nodup
  parameters := h.parameters

/-- A symbol may be registered with a slot that has an owner, or as the owner of its storage. -/
theorem register (h : t.Owned) (name text : String) (expr : Expr) (type? : Option String)
    {slot : Slot} (hslot : t.Owns slot.root ∨ slot = .ofRoot name) :
    (t.register name text expr type? slot).Owned := by
  cases hreg : t.isRegistered name with
  | true => rwa [register_of_registered hreg]
  | false =>
    have hext := Extends.register t name text expr type? slot
    rw [register_of_fresh hreg] at hext ⊢
    have hfresh : name ∉ t.slots := by
      rw [← isRegistered_iff, hreg]
      exact Bool.false_ne_true
    have horder : name ∉ t.order := fun hmem => hfresh ((h.order name).1 hmem)
    constructor
    case root =>
      intro s slot' hs
      rw [Std.ExtTreeMap.getElem?_insert] at hs
      split at hs
      · next heq =>
        -- the symbol is the new one
        cases hs
        rw [← Std.compare_eq_iff_eq.1 heq]
        rcases hslot with hslot | rfl
        · refine ⟨hslot.extends hext, ?_⟩
          rw [List.idxOf_append, if_pos ((h.order _).2 hslot.mem), List.idxOf_append,
            if_neg horder]
          have := List.idxOf_le_length (a := slot.root) (l := t.order)
          omega
        · exact ⟨Std.ExtTreeMap.getElem?_insert_self, Nat.le_refl _⟩
      · -- an older symbol and its owner keep their places in the order
        obtain ⟨howns, hle⟩ := h.root s slot' hs
        refine ⟨howns.extends hext, ?_⟩
        rw [List.idxOf_append, if_pos ((h.order _).2 howns.mem), List.idxOf_append,
          if_pos ((h.order _).2 (Table.mem_of_getElem? hs))]
        exact hle
    case sized => exact fun slot' hmem => (h.sized slot' hmem).extends hext
    case exprs =>
      intro s
      simp only [Std.ExtTreeMap.mem_insert, h.exprs]
    case order =>
      intro s
      simp only [List.mem_append, List.mem_singleton, Std.ExtTreeMap.mem_insert, h.order,
        Std.compare_eq_iff_eq]
      constructor
      · rintro (hs | rfl)
        · exact .inr hs
        · exact .inl rfl
      · rintro (rfl | hs)
        · exact .inr rfl
        · exact .inl hs
    case nodup =>
      refine List.nodup_append.2 ⟨h.nodup, List.pairwise_singleton _ _, ?_⟩
      rintro s hs s' hs' rfl
      rw [List.mem_singleton.1 hs'] at hs
      exact horder hs
    case parameters =>
      intro s hs
      rcases Std.ExtTreeMap.mem_insert.1 hs with heq | hs
      · exact Std.ExtTreeMap.mem_insertIfNew.2 (.inl heq)
      · exact Std.ExtTreeMap.mem_insertIfNew.2 (.inr (h.parameters s hs))

/-! ### Bindings -/

theorem bindElement (h : t.Owned) {b : Bound} (hb : t.Houses b) (index : Int) (type : String) :
    (Value.bindElement d b index type t).2.Owned ∧
      (Value.bindElement d b index type t).2.Houses (Value.bindElement d b index type t).1 := by
  obtain ⟨base, types, heq⟩ := Value.bindElement_eq d b index type t
  rw [heq, Value.elementOver]
  cases hslot : b.slot with
  | none => exact ⟨h.withTypes types, .of_none rfl⟩
  | some slot =>
    have howns : t.Owns slot.root := hb slot hslot
    refine ⟨(h.withTypes types).recordSize howns _, fun slot' hslot' => ?_⟩
    cases hslot'
    exact howns

/-- **A binding keeps owners, and what it denotes has one.** -/
theorem bind (h : t.Owned) (v : Value) :
    (v.bind d t).2.Owned ∧ (v.bind d t).2.Houses (v.bind d t).1 := by
  induction v generalizing t with
  | atom text => exact ⟨h, .of_none rfl⟩
  | reference symbol text => exact ⟨h, fun slot hslot => (h.root symbol slot hslot).1⟩
  | element base index type fields ih =>
    have hbase := ih h
    have helement := hbase.1.bindElement (d := d) hbase.2 index type
    simp only [Value.bind]
    split
    · exact helement
    · exact ⟨helement.1, .of_none rfl⟩
  | region inner fields ih =>
    simp only [Value.bind]
    split
    · exact ih h
    · exact ⟨(ih h).1, .of_none rfl⟩
  | definition name type inner source ih =>
    obtain ⟨hinner, hhouses⟩ := ih h
    have hreg := hinner.register name source (inner.bind d t).1.expr
      (some (d.resolveType type)) (hhouses.getD name)
    exact ⟨hreg, fun slot hslot => (hreg.root name slot hslot).1⟩

theorem move (h : t.Owned) (hmove : Move d t t') : t'.Owned := by
  cases hmove with
  | bind v => exact (h.bind v).1
  | parameter name text v =>
    obtain ⟨hv, hhouses⟩ := h.bind (d := d) v
    exact hv.register name text _ _ (hhouses.getD name)

theorem runs (h : t.Owned) (hruns : Runs d t t') : t'.Owned := by
  induction hruns with
  | refl => exact h
  | tail _ hmove ih => exact ih.move hmove

theorem of_resolveParameters {c : Case} {outcome : Except ParseError Unit}
    (h : d.resolveParameters (c.intake d) = (outcome, t)) : t.Owned :=
  (intake d c).runs (Declarations.runs_of_resolveParameters h)

end Owned

end Tables

/-! ### Operations on a case -/

/-- What can be done with the tables of a case. -/
inductive Operation where
  /-- A text is read as a value, nested at most `limit` deep. -/
  | read (limit : Nat) (text : String)
  /-- All parameters are resolved. -/
  | resolve

/-- The tables after an operation, whether it fails or not. -/
def Operation.apply (d : Declarations) : Operation → Tables → Tables
  | read limit text, t => (d.bindText limit text t).2
  | resolve, t => (d.resolveParameters t).2

theorem Operation.runs (op : Operation) (t : Tables) : Runs d t (op.apply d t) := by
  cases op with
  | read limit text => exact Declarations.runs_bindText limit text t
  | resolve => exact Declarations.runs_resolveParameters t

namespace Tables

/-- The tables of a case after some operations, one after the other. -/
def after (d : Declarations) (c : Case) (ops : List Operation) : Tables :=
  ops.foldl (fun t op => op.apply d t) (c.intake d)

/-- **Every slot has an owner**, whatever was done with the tables of a case. -/
theorem owned_after (d : Declarations) (c : Case) (ops : List Operation) :
    (after d c ops).Owned := by
  have hall (t : Tables) (h : t.Owned) : (ops.foldl (fun t op => op.apply d t) t).Owned := by
    induction ops generalizing t with
    | nil => exact h
    | cons op ops ih => exact ih _ (h.runs (op.runs t))
  exact hall _ (Owned.intake d c)

end Tables

end TestSynth
