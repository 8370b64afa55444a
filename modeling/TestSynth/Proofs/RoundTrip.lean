import TestSynth.Proofs.Reading
import TestSynth.Proofs.Runs

/-!
# Round trip of values

A tree is written down, read back and bound: what comes out is what the tree denotes.

* `Value.bind_toValue` : the value of a tree is bound to what the tree denotes.
* `Declarations.bindText_spelling` : the text of a tree is read and bound to what the tree denotes.
-/

namespace TestSynth

variable (d : Declarations)

namespace Tables

theorem register_eq_defined (t : Tables) (name source : String) (expr : Expr) (type : String)
    (slot : Slot) :
    t.register name source expr (some type) slot = ValueTree.defined name source expr type slot t :=
  rfl

end Tables

namespace Value

theorem sizeForIndex_inner (i : InnerIndex) : sizeForIndex i.value = (i.value + 1).toNat := by
  have := i.lt_greatest
  rw [sizeForIndex, Int.min_eq_left (by omega)]

theorem recordSize_inner (t : Tables) (slot : Slot) (i : InnerIndex) :
    t.recordSize slot (sizeForIndex i.value) =
      { t with
        sizes := t.sizes.insert slot (max (t.sizes[slot]?.getD 0) (i.value + 1).toNat) } := by
  rw [Tables.recordSize, sizeForIndex_inner]

theorem typeOf?_any_iff (b : Bound) (t : Tables) :
    ((d.typeOf? t b).any fun declared => isVoidLike (d.resolveType declared)) = true ↔
      ValueTree.isUntyped d b t := by
  simp [ValueTree.isUntyped, Option.any_eq_true]

theorem bindElement_inner_of_untyped {b : Bound} {t : Tables} (h : ValueTree.isUntyped d b t)
    (i : InnerIndex) (type : String) :
    bindElement d b i.value type t =
      (⟨.index (.cast (type ++ " *") b.expr) i.value, none, b.slot.map Slot.element⟩,
        ValueTree.indexed b i.value (ValueTree.narrowed b type t)) := by
  rw [bindElement_of_void d ((typeOf?_any_iff d b t).2 h), elementOver]
  cases hsymbol : b.symbol <;> cases hslot : b.slot <;>
    simp only [ValueTree.narrowed, ValueTree.indexed, hsymbol, hslot, recordSize_inner,
      Option.elim_none, Option.elim_some, Option.map_none, Option.map_some]

theorem bindElement_inner_of_typed {b : Bound} {t : Tables} (h : ¬ValueTree.isUntyped d b t)
    (i : InnerIndex) (type : String) :
    bindElement d b i.value type t =
      (⟨.index b.expr i.value, none, b.slot.map Slot.element⟩, ValueTree.indexed b i.value t) := by
  have hnot := Bool.eq_false_iff.2 (mt (typeOf?_any_iff d b t).1 h)
  rw [bindElement_of_typed d hnot, elementOver]
  cases hslot : b.slot <;>
    simp only [ValueTree.indexed, hslot, recordSize_inner, Option.elim_none, Option.elim_some]

/-- **The value of a tree is bound to what the tree denotes**, with the same effects. -/
theorem bind_toValue (v : ValueTree) (t : Tables) : v.toValue.bind d t = v.denote d t := by
  induction v generalizing t with
  | atom a =>
    cases hsymbol : a.symbol <;>
      simp only [ValueTree.toValue, hsymbol, Option.elim_none, Option.elim_some, bind,
        ValueTree.denote, Option.bind_none, Option.bind_some]
  | element base index type fields ih =>
    simp only [ValueTree.toValue, bind, ih, ValueTree.denote]
    generalize base.denote d t = bt
    obtain ⟨b, t⟩ := bt
    -- both sides ask whether the base is untyped, and then whether there are fields
    by_cases huntyped : ValueTree.isUntyped d b t
    · simp only [bindElement_inner_of_untyped d huntyped, if_pos huntyped]
      cases fields <;> rfl
    · simp only [bindElement_inner_of_typed d huntyped, if_neg huntyped]
      cases fields <;> rfl
  | region inner fields ih =>
    simp only [ValueTree.toValue, bind, ih, ValueTree.denote]
    cases fields <;> rfl
  | definition name type inner ih =>
    simp only [ValueTree.toValue, bind, ih, ValueTree.denote, Tables.register_eq_defined]
    rfl

theorem referent?_toValue (v : ValueTree) : v.toValue.referent? = v.referent? := by
  induction v with
  | atom a =>
    rw [ValueTree.toValue, ValueTree.referent?]
    cases a.symbol <;> rfl
  | element base index type fields ih => exact ih
  | region inner fields ih => exact ih
  | definition name type inner ih => exact ih

end Value

namespace Declarations

/-- **Reading undoes writing.**  A text that is written for a tree is read, and bound to exactly
what the tree denotes, with exactly the effects on the tables that the tree has, as long as the tree
is nested within the limit and its innermost symbol needs no resolution of its own. -/
theorem bindText_spelling {limit : Nat} {v : ValueTree} {t : Tables} (hdepth : v.depth ≤ limit)
    (hsettled : ∀ symbol, v.referent? = some symbol →
      t.isRegistered symbol = true ∨ symbol ∉ t.parameters) :
    d.bindText limit v.spelling t = (.ok (v.denote d t).1, (v.denote d t).2) := by
  rw [bindText, Value.parse_spelling hdepth, bindReading, Value.referent?_toValue]
  cases hreferent : v.referent? with
  | none => simp only [Option.elim_none, Value.bind_toValue]
  | some symbol =>
    simp only [Option.elim_some, resolve_of_settled d (hsettled symbol hreferent),
      Value.bind_toValue]

/-- What an untyped buffer stores, defined as a register. -/
def storedElement : ValueTree :=
  have buffer : Token.ofText "reg_$1" = [.register "reg_$1"] := by decide +kernel
  .definition ⟨"reg_$3", by decide +kernel⟩
    ⟨⟨"int", by decide +kernel, by decide +kernel⟩, by decide +kernel⟩
    (.element
      (.region (.atom ⟨"reg_$1", some "reg_$1", buffer ▸ .register _, by decide +kernel⟩) [])
      ⟨2, by decide, by decide⟩ ⟨"int", by decide +kernel, by decide +kernel⟩ [])

/-- Tables that know an untyped buffer. -/
def untypedBuffer : Tables :=
  ({} : Tables).register "reg_$1" "p" (.ident "p") (some "void *") (.ofRoot "reg_$1")

theorem bindText_storedElement :
    storedElement.spelling = "reg_$3<int,Element{SymRegion{reg_$1},2,int}>" ∧
    storedElement.depth ≤ 4 ∧
    (∀ symbol, storedElement.referent? = some symbol →
      untypedBuffer.isRegistered symbol = true ∨ symbol ∉ untypedBuffer.parameters) ∧
    let (outcome, t) := ({} : Declarations).bindText 4 storedElement.spelling untypedBuffer
    outcome = .ok ⟨.index (.cast "int *" (.ident "reg_$1")) 2, some "reg_$3", some ⟨"reg_$1", 1⟩⟩ ∧
      t.types["reg_$1"]? = some "int *" ∧ t.recordedSize? "reg_$1" 0 = some 3 ∧
      t.parameters["reg_$3"]? = some "Element{SymRegion{reg_$1},2,int}" ∧
      t.order = ["reg_$1", "reg_$3"] := by
  have hsettled : ∀ symbol, storedElement.referent? = some symbol →
      untypedBuffer.isRegistered symbol = true ∨ symbol ∉ untypedBuffer.parameters := by
    intro symbol h
    cases h
    exact .inl (by decide +kernel)
  refine ⟨by decide +kernel, by decide, hsettled, ?_⟩
  rw [bindText_spelling {} (by decide) hsettled]
  decide +kernel

end Declarations

end TestSynth
