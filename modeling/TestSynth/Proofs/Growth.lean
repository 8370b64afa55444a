import TestSynth.Proofs.Ownership

/-!
# Growth of the tables

Whatever is read, the tables lose nothing: a registered symbol keeps its expression, its slot and
its place in the order, the texts of the parameters and the literals of the model stay, and sizes
only rise.  Only a type can be replaced, if it says nothing of what is stored, and then by a pointer
to the type of an element that was read.

* `Grows` : what one state of the tables has to do with a later one.
* `Grows.bind` : a binding grows the tables, told by the element types inside its value.
* `Operation.grows` : so does every operation, also one that fails.
* `Tables.grows_after` : so does any sequence of operations.
-/

namespace TestSynth

variable {d : Declarations}

/-- The types of the elements that a value goes through. -/
def Value.elementTypes : Value → List String
  | atom _ => []
  | reference _ _ => []
  | element base _ type _ => type :: base.elementTypes
  | region inner _ => inner.elementTypes
  | definition _ _ inner _ => inner.elementTypes

/-! ### Growing tables -/

/-- The tables `t` have become `t'`, and the elements that were read on the way have the types in
`told`. -/
structure Grows (d : Declarations) (told : String → Prop) (t t' : Tables) : Prop
    extends Extends t t' where
  exprs : ∀ s, t.isRegistered s = true → t'.exprs[s]? = t.exprs[s]?
  values : t'.values = t.values
  callNames : t'.callNames = t.callNames
  callValues : t'.callValues = t.callValues
  sizes : ∀ (slot : Slot) (size : Nat), t.sizes[slot]? = some size →
    ∃ size', t'.sizes[slot]? = some size' ∧ size ≤ size'
  /-- A type stays, or it says nothing of what is stored and the elements tell what it is. -/
  types : ∀ (s type : String), t.isRegistered s = true → t.types[s]? = some type →
    t'.types[s]? = some type ∨ isVoidLike (d.resolveType type) = true ∧
      ∃ element, told element ∧ t'.types[s]? = some (element ++ " *")

namespace Grows

variable {told told' : String → Prop} {t t' t'' : Tables}

theorem refl (t : Tables) : Grows d told t t where
  toExtends := .refl t
  exprs _ _ := rfl
  values := rfl
  callNames := rfl
  callValues := rfl
  sizes _ size hsize := ⟨size, hsize, Nat.le_refl _⟩
  types _ _ _ htype := .inl htype

theorem trans (h : Grows d told t t') (h' : Grows d told t' t'') : Grows d told t t'' where
  toExtends := h.toExtends.trans h'.toExtends
  exprs s hs := (h'.exprs s (h.isRegistered hs)).trans (h.exprs s hs)
  values := h'.values.trans h.values
  callNames := h'.callNames.trans h.callNames
  callValues := h'.callValues.trans h.callValues
  sizes slot size hsize := by
    obtain ⟨size', hsize', hle⟩ := h.sizes slot size hsize
    obtain ⟨size'', hsize'', hle'⟩ := h'.sizes slot size' hsize'
    exact ⟨size'', hsize'', Nat.le_trans hle hle'⟩
  types s type hs htype := by
    rcases h.types s type hs htype with hkept | ⟨hvoid, element, htold, hnew⟩
    · exact h'.types s type (h.isRegistered hs) hkept
    · -- what replaced the type may itself be replaced once more
      rcases h'.types s _ (h.isRegistered hs) hnew with hkept | ⟨-, element', htold', hnew'⟩
      · exact .inr ⟨hvoid, element, htold, hkept⟩
      · exact .inr ⟨hvoid, element', htold', hnew'⟩

theorem mono (h : Grows d told t t') (hle : ∀ element, told element → told' element) :
    Grows d told' t t' where
  toExtends := h.toExtends
  exprs := h.exprs
  values := h.values
  callNames := h.callNames
  callValues := h.callValues
  sizes := h.sizes
  types s type hs htype := (h.types s type hs htype).imp_right fun ⟨hvoid, element, htold, hnew⟩ =>
    ⟨hvoid, element, hle element htold, hnew⟩

/-! ### Single steps -/

theorem recordSize (t : Tables) (slot : Slot) (size : Nat) :
    Grows d told t (t.recordSize slot size) where
  toExtends := .of_eq rfl rfl rfl
  exprs _ _ := rfl
  values := rfl
  callNames := rfl
  callValues := rfl
  sizes slot' size' hsize := by
    rw [Tables.recordSize, Std.ExtTreeMap.getElem?_insert]
    split
    · next heq =>
      rw [Std.compare_eq_iff_eq.1 heq, hsize]
      exact ⟨_, rfl, Nat.le_max_left _ _⟩
    · exact ⟨size', hsize, Nat.le_refl _⟩
  types _ _ _ htype := .inl htype

theorem narrow {s element : String} (htold : told element)
    (hvoid : ∀ type, t.types[s]? = some type → isVoidLike (d.resolveType type) = true) :
    Grows d told t { t with types := t.types.insert s (element ++ " *") } where
  toExtends := .of_eq rfl rfl rfl
  exprs _ _ := rfl
  values := rfl
  callNames := rfl
  callValues := rfl
  sizes _ size hsize := ⟨size, hsize, Nat.le_refl _⟩
  types s' type _ htype := by
    rw [Std.ExtTreeMap.getElem?_insert]
    split
    · next heq =>
      rw [← Std.compare_eq_iff_eq.1 heq] at htype
      exact .inr ⟨hvoid type htype, element, htold, rfl⟩
    · exact .inl htype

/-- A registration adds to the tables, and only to what they know of a fresh symbol. -/
theorem register (t : Tables) (name text : String) (expr : Expr) (type? : Option String)
    (slot : Slot) : Grows d told t (t.register name text expr type? slot) := by
  cases hreg : t.isRegistered name with
  | true =>
    rw [Tables.register_of_registered hreg]
    exact refl t
  | false =>
    have hext := Extends.register t name text expr type? slot
    rw [Tables.register_of_fresh hreg] at hext ⊢
    have hother {α : Type} (table : Table α) (a : α) {s : String} (hs : t.isRegistered s = true) :
        (table.insert name a)[s]? = table[s]? := by
      rw [Std.ExtTreeMap.getElem?_insert, if_neg]
      intro heq
      rw [← Std.compare_eq_iff_eq.1 heq, hreg] at hs
      cases hs
    exact {
      toExtends := hext
      exprs := fun s hs => hother t.exprs expr hs
      values := rfl
      callNames := rfl
      callValues := rfl
      sizes := fun slot size hsize => ⟨size, hsize, Nat.le_refl _⟩
      types := fun s type hs htype => .inl (by
        cases type? with
        | none => exact htype
        | some type' => exact (hother t.types type' hs).trans htype) }

/-! ### Bindings -/

theorem elementOver (b : Bound) (index : Int) (base : Expr) (t : Tables) :
    Grows d told t (Value.elementOver b index base t).2 := by
  rw [Value.elementOver]
  cases b.slot with
  | none => exact refl t
  | some slot => exact recordSize t slot _

theorem bindElement (b : Bound) (index : Int) {type : String} (htold : told type) (t : Tables) :
    Grows d told t (Value.bindElement d b index type t).2 := by
  cases hvoid : (d.typeOf? t b).any fun declared => isVoidLike (d.resolveType declared) with
  | false =>
    rw [Value.bindElement_of_typed d hvoid]
    exact elementOver b index b.expr t
  | true =>
    rw [Value.bindElement_of_void d hvoid]
    refine trans ?_ (elementOver b index (.cast (type ++ " *") b.expr) _)
    cases hsymbol : b.symbol with
    | none => exact refl t
    | some symbol =>
      -- the type of the base is that of its symbol, if this has one
      refine narrow htold fun declared hdeclared => ?_
      simpa [Declarations.typeOf?, hsymbol, hdeclared] using hvoid

/-- **A binding grows the tables**, told by the elements inside its value. -/
theorem bind {v : Value} (htold : ∀ type ∈ v.elementTypes, told type) (t : Tables) :
    Grows d told t (v.bind d t).2 := by
  induction v generalizing t with
  | atom text => exact refl t
  | reference symbol text => exact refl t
  | element base index type fields ih =>
    have htype : told type := htold type List.mem_cons_self
    have h := (ih (fun type' htype' => htold type' (List.mem_cons_of_mem _ htype')) t).trans
      (bindElement (base.bind d t).1 index htype (base.bind d t).2)
    simp only [Value.bind]
    split <;> exact h
  | region inner fields ih =>
    simp only [Value.bind]
    split <;> exact ih htold t
  | definition name type inner source ih => exact (ih htold t).trans (register ..)

variable {read : Value → Prop}

theorem learns (hread : ∀ v, read v → ∀ type ∈ v.elementTypes, told type)
    (h : Learns d read t t') : Grows d told t t' := by
  cases h with
  | bind hv => exact bind (hread _ hv) t
  | parameter hv hname text => exact (bind (hread _ hv) t).trans (register ..)

theorem learned (hread : ∀ v, read v → ∀ type ∈ v.elementTypes, told type)
    (h : Learned d read t t') : Grows d told t t' := by
  induction h with
  | refl => exact refl t
  | tail _ hlearns ih => exact ih.trans (learns hread hlearns)

end Grows

/-! ### Operations -/

namespace Operation

/-- How deep an operation lets values be nested. -/
def limit : Operation → Nat
  | read limit _ => limit
  | resolve => Value.defaultLimit

/-- The texts that an operation may read: its own, and those of the parameters. -/
inductive Sees (t : Tables) : Operation → String → Prop
  | own (limit : Nat) (text : String) : Sees t (.read limit text) text
  | parameter (op : Operation) {name text : String} (htext : t.parameters[name]? = some text) :
    Sees t op text

/-- The operation may read `v`, as the value of a text or as what there is of it. -/
def Reads (t : Tables) (op : Operation) (v : Value) : Prop :=
  ∃ text, op.Sees t text ∧ Value.completed? (Value.parse op.limit text) = some v

/-- The operation may read an element of the type. -/
def Tells (t : Tables) (op : Operation) (type : String) : Prop :=
  ∃ v, op.Reads t v ∧ type ∈ v.elementTypes

variable (op : Operation) (t : Tables)

theorem offers : t.Offers op.limit (op.Reads t) :=
  fun _ text _ _ htext hv => ⟨text, .parameter op htext, hv⟩

/-- **An operation learns from what it may read**, whether it fails or not. -/
theorem learned : Learned d (op.Reads t) t (op.apply d t) := by
  cases op with
  | read limit text =>
    exact Declarations.learned_bindText (offers (.read limit text) t)
      fun v hv => ⟨text, .own limit text, hv⟩
  | resolve => exact Declarations.learned_resolveParameters (offers .resolve t)

/-- **An operation grows the tables**, whether it fails or not. -/
theorem grows : Grows d (op.Tells t) t (op.apply d t) :=
  .learned (fun v hv _ htype => ⟨v, hv, htype⟩) (op.learned t)

end Operation

/-- One of the operations, when it has its turn, may read an element of the type. -/
def ToldBy (d : Declarations) : List Operation → Tables → String → Prop
  | [], _, _ => False
  | op :: ops, t, type => op.Tells t type ∨ ToldBy d ops (op.apply d t) type

namespace Tables

theorem after_append (d : Declarations) (c : Case) (ops more : List Operation) :
    after d c (ops ++ more) = more.foldl (fun t op => op.apply d t) (after d c ops) :=
  List.foldl_append

/-- **Tables only grow**: after some operations on a case, all that the tables knew is still known
after any more of them. -/
theorem grows_after (d : Declarations) (c : Case) (ops more : List Operation) :
    Grows d (ToldBy d more (after d c ops)) (after d c ops) (after d c (ops ++ more)) := by
  rw [after_append]
  generalize after d c ops = t
  induction more generalizing t with
  | nil => exact .refl t
  | cons op more ih =>
    have hfirst : Grows d (ToldBy d (op :: more) t) t (op.apply d t) :=
      (op.grows t).mono fun _ => .inl
    exact hfirst.trans ((ih (op.apply d t)).mono fun _ => .inr)

end Tables

end TestSynth
