import TestSynth.Proofs.PostfixForms
import TestSynth.Proofs.Rendering
import TestSynth.Proofs.Shapes
import TestSynth.Proofs.Unfolding

/-!
# What accesses bind to

An index or a field link is written behind its base, and the base is put into parentheses only if it
is a cast.  So all accesses of an expression follow the text of its head, the cast or the name that
they begin at, and they are applied to all of it only if this text is a postfix expression of C.
A group is one.  A name in an expression may be any text, though, and then it need not be one.

* `Expr.head` : where the accesses of an expression begin.
* `Expr.isPostfix_operand_iff` : an operand is a postfix expression exactly if its head is one, or a
  cast.
* `Value.isSealed_bind`, `Expr.isSealed_expand` : brackets and quotes stay closed where values are
  bound and references are substituted.
* `Value.applies_iff` : which accesses of a value are applied to all of it.
-/

namespace TestSynth

open Postfix

/-- A text is read as an access that is applied to all of a base. -/
structure Applies (isType : List Char → Bool) (base access text : List Char) : Prop where
  text_eq : text = base ++ access
  base_isPostfix : IsPostfix isType base
  text_isPostfix : IsPostfix isType text

namespace Expr

/-- The name or the cast that all accesses of an expression follow. -/
def head : Expr → Expr
  | ident name => ident name
  | index base _ => base.head
  | field base _ _ => base.head
  | cast type inner => cast type inner

/-- The texts in an expression close their brackets and quotes, and fields are called by names. -/
def IsSealed : Expr → Prop
  | ident name => Enclosed name.toList
  | index base _ => base.IsSealed
  | field base name _ => base.IsSealed ∧ IsIdent name.toList
  | cast type inner => Enclosed type.toList ∧ inner.IsSealed

theorem isBare_toString (i : Int) : ∀ c ∈ (toString i).toList, IsBare c := by
  intro c hc
  rcases Index.isDigit_or_minus_of_mem hc with h | rfl
  · exact isBare_of_class (p := Char.isDigit) (by decide) h
  · decide

theorem link_cases (viaPointer : Bool) :
    (if viaPointer then ['-', '>'] else ['.']) = ['.'] ∨
      (if viaPointer then ['-', '>'] else ['.']) = ['-', '>'] := by
  cases viaPointer <;> simp

/-- A sealed expression closes its brackets and quotes. -/
theorem IsSealed.enclosed {e : Expr} (h : e.IsSealed) :
    Enclosed e.render.toList ∧ Enclosed e.operand := by
  induction e with
  | ident name =>
    rw [operand_of_not_cast rfl]
    exact ⟨h, h⟩
  | index base i ih =>
    rw [operand_of_not_cast rfl, and_self, toList_render_index]
    exact (ih h).2.append (Enclosed.of_bare (isBare_toString i)).square
  | field base name viaPointer ih =>
    rw [operand_of_not_cast rfl, and_self, toList_render_field]
    refine (ih h.1).2.append
      (.append ?_ (.of_bare fun c hc => isBare_of_isNameChar (h.2.chars c hc)))
    cases viaPointer <;> decide
  | cast type inner ih =>
    have hrender : Enclosed (cast type inner).render.toList := by
      have hspace : Enclosed [' '] := by decide
      have := h.1.group.append (hspace.append (ih h.2).2)
      rw [toList_render_cast]
      simpa using this
    rw [operand_cast]
    exact ⟨hrender, hrender.group⟩

/-- **An operand is a postfix expression exactly if its head is one, or a cast.**  No type begins
with a parenthesis. -/
theorem isPostfix_operand_iff {isType : List Char → Bool}
    (htype : ∀ s, isType ('(' :: s) = false) {e : Expr} (h : e.IsSealed) :
    IsPostfix isType e.operand ↔
      e.head.isCast = true ∨ IsPostfix isType e.head.render.toList := by
  induction e with
  | ident name =>
    rw [operand_of_not_cast rfl, head]
    simp [isCast]
  | index base i ih =>
    rw [operand_of_not_cast rfl, toList_render_index, head,
      isPostfix_index_iff (isBare_toString i)]
    exact ih h
  | field base name viaPointer ih =>
    rw [operand_of_not_cast rfl, toList_render_field, head,
      isPostfix_field_iff (link_cases viaPointer) h.2]
    exact ih h.1
  | cast type inner =>
    have hgroup : IsPostfix isType (cast type inner).operand := by
      rw [operand_cast]
      refine .group h.enclosed.1 ?_
      rw [toList_render_cast]
      exact htype _
    exact iff_of_true hgroup (.inl rfl)

/-! ### Substitution -/

theorem IsSealed.graft {path e : Expr} (hpath : path.IsSealed) (he : e.IsSealed) :
    (path.graft e).IsSealed := by
  induction path with
  | ident name => exact he
  | index base i ih => exact ih hpath
  | field base name viaPointer ih => exact ⟨ih hpath.1, hpath.2⟩
  | cast type inner ih => exact ⟨hpath.1, ih hpath.2⟩

/-- **What is substituted for references is sealed as well.** -/
theorem isSealed_expand {exprs : Table Expr}
    (hexprs : ∀ (s : String) (e : Expr), exprs[s]? = some e → e.IsSealed) {e : Expr}
    (h : e.IsSealed) (steps : Nat) : (e.expand exprs steps).IsSealed := by
  induction steps generalizing e with
  | zero => exact h
  | succ steps ih =>
    rw [expand, mapNames_eq]
    cases hbound : exprs[referentOf e.leaf]? with
    | none => exact h
    | some bound =>
      dsimp only
      split_ifs
      · exact h
      · exact h.graft (ih (hexprs _ _ hbound))

theorem expand_index (exprs : Table Expr) (steps : Nat) (base : Expr) (i : Int) :
    (index base i).expand exprs steps = index (base.expand exprs steps) i := by
  cases steps <;> rfl

theorem expand_field (exprs : Table Expr) (steps : Nat) (base : Expr) (name : String)
    (viaPointer : Bool) :
    (field base name viaPointer).expand exprs steps =
      field (base.expand exprs steps) name viaPointer := by
  cases steps <;> rfl

theorem expand_cast (exprs : Table Expr) (steps : Nat) (type : String) (inner : Expr) :
    (cast type inner).expand exprs steps = cast type (inner.expand exprs steps) := by
  cases steps <;> rfl

end Expr

/-! ### Values -/

/-- All expressions of the symbols are sealed. -/
def Tables.IsSealed (t : Tables) : Prop :=
  ∀ (s : String) (e : Expr), t.exprs[s]? = some e → e.IsSealed

theorem Tables.IsSealed.register {t : Tables} (ht : t.IsSealed) {e : Expr} (he : e.IsSealed)
    (name text : String) (type? : Option String) (slot : Slot) :
    (t.register name text e type? slot).IsSealed := by
  by_cases hreg : t.isRegistered name = true
  · rwa [register_of_registered hreg]
  · rw [register_of_fresh (by simpa using hreg)]
    intro s bound hbound
    rw [Std.ExtTreeMap.getElem?_insert] at hbound
    split at hbound
    · cases hbound
      exact he
    · exact ht s bound hbound

theorem Declarations.isSealed_takeFields (d : Declarations) {e : Expr} (he : e.IsSealed)
    {fields : List String} (hfields : ∀ f ∈ fields, IsIdent f.toList) (viaPointer : Bool)
    (record : Option String) : (d.takeFields e viaPointer record fields).IsSealed := by
  induction fields generalizing e viaPointer record with
  | nil => exact he
  | cons field fields ih =>
    rw [List.forall_mem_cons] at hfields
    exact ih (e := .field e field viaPointer) ⟨he, hfields.1⟩ hfields.2 _ _

namespace Value

/-- The texts that a value is denoted with close their brackets and quotes, and its fields are
called by names. -/
def IsSealed : Value → Prop
  | atom text => Enclosed text.toList
  | reference _ text => Enclosed text.toList
  | element base _ type fields =>
    base.IsSealed ∧ Enclosed type.toList ∧ ∀ f ∈ fields, IsIdent f.toList
  | region inner fields => inner.IsSealed ∧ ∀ f ∈ fields, IsIdent f.toList
  | definition _ _ inner _ => inner.IsSealed

variable (d : Declarations) {t : Tables} {v : Value}

/-- An element is that of its base, or of a cast of it to pointers. -/
theorem exists_bindElement (b : Bound) (index : Int) (type : String) (t : Tables) :
    ∃ base, (base = b.expr ∨ base = .cast (type ++ " *") b.expr) ∧
      (bindElement d b index type t).1.expr = .index base index ∧
      (bindElement d b index type t).2.exprs = t.exprs := by
  have hexprs (base : Expr) (t : Tables) : (elementOver b index base t).2.exprs = t.exprs := by
    rw [elementOver]
    cases b.slot <;> rfl
  by_cases hvoid : (d.typeOf? t b).any (fun type => isVoidLike (d.resolveType type)) = true
  · rw [bindElement_of_void d hvoid]
    exact ⟨_, .inr rfl, rfl, hexprs _ _⟩
  · rw [bindElement_of_typed d (by simpa using hvoid)]
    exact ⟨_, .inl rfl, rfl, hexprs _ _⟩

theorem enclosed_pointer {type : String} (h : Enclosed type.toList) :
    Enclosed (type ++ " *").toList := by
  rw [String.toList_append]
  exact h.append (by decide)

theorem isSealed_bindElement {b : Bound} (hb : b.expr.IsSealed) (ht : t.IsSealed) {type : String}
    (htype : Enclosed type.toList) (index : Int) :
    (bindElement d b index type t).1.expr.IsSealed ∧
      (bindElement d b index type t).2.IsSealed := by
  obtain ⟨base, hbase, hexpr, hexprs⟩ := exists_bindElement d b index type t
  rw [hexpr, Tables.IsSealed, hexprs]
  refine ⟨?_, ht⟩
  rcases hbase with rfl | rfl
  · exact hb
  · exact ⟨enclosed_pointer htype, hb⟩

/-- **What a sealed value is bound to is sealed**, and so is what the tables learn from it. -/
theorem isSealed_bind (ht : t.IsSealed) (h : v.IsSealed) :
    (v.bind d t).1.expr.IsSealed ∧ (v.bind d t).2.IsSealed := by
  induction v generalizing t with
  | atom text => exact ⟨h, ht⟩
  | reference symbol text => exact ⟨h, ht⟩
  | element base index type fields ih =>
    obtain ⟨hbase, htype, hfields⟩ := h
    obtain ⟨hexpr, htables⟩ := ih ht hbase
    have helement := isSealed_bindElement d hexpr htables htype index
    rw [bind_element]
    dsimp only
    split
    · exact helement
    · exact ⟨d.isSealed_takeFields helement.1 hfields _ _, helement.2⟩
  | region inner fields ih =>
    obtain ⟨hinner, hfields⟩ := h
    obtain ⟨hexpr, htables⟩ := ih ht hinner
    rw [bind_region]
    dsimp only
    split
    · exact ⟨hexpr, htables⟩
    · exact ⟨d.isSealed_takeFields hexpr hfields _ _, htables⟩
  | definition name type inner source ih =>
    obtain ⟨hexpr, htables⟩ := ih ht h
    exact ⟨hexpr, htables.register hexpr _ _ _ _⟩

/-- The expression of a value after some substitutions of references. -/
def expanded (v : Value) (t : Tables) (steps : Nat) : Expr :=
  (v.bind d t).1.expr.expand (v.bind d t).2.exprs steps

theorem expanded_element (v : Value) (index : Int) (type : String) (t : Tables) (steps : Nat) :
    ∃ base, (base = v.expanded d t steps ∨ base = .cast (type ++ " *") (v.expanded d t steps)) ∧
      (element v index type []).expanded d t steps = .index base index := by
  obtain ⟨base, hbase, hindex, hexprs⟩ :=
    exists_bindElement d (v.bind d t).1 index type (v.bind d t).2
  refine ⟨base.expand (v.bind d t).2.exprs steps, ?_, ?_⟩
  · rcases hbase with rfl | rfl
    · exact .inl rfl
    · exact .inr (Expr.expand_cast _ _ _ _)
  · rw [expanded, bind_element, ← Expr.expand_index, ← hindex, ← hexprs]
    rfl

theorem expanded_region (v : Value) (field : String) (t : Tables) (steps : Nat) :
    ∃ viaPointer, (region v [field]).expanded d t steps =
      .field (v.expanded d t steps) field viaPointer := by
  refine ⟨(d.typeOf? (v.bind d t).2 (v.bind d t).1).any d.isPointerType, ?_⟩
  rw [expanded, bind_region, expanded, ← Expr.expand_field]
  rfl

/-- **An access is applied to all of its value exactly if the text that the value begins with is a
postfix expression**, or a cast, which is put into parentheses; so it is before references are
substituted and after any number of substitutions.  Of any other text, the access takes the last
operand alone: nothing but casts is put into parentheses. -/
theorem applies_iff {isType : List Char → Bool} (hisType : ∀ s, isType ('(' :: s) = false)
    (ht : t.IsSealed) (hv : v.IsSealed) (index : Int) {type : String}
    (htype : Enclosed type.toList) {field : String} (hfield : IsIdent field.toList)
    (steps : Nat) :
    (∃ base, (base = v.expanded d t steps ∨
        base = .cast (type ++ " *") (v.expanded d t steps)) ∧
      (element v index type []).expanded d t steps = .index base index ∧
      (Applies isType base.operand ('[' :: ((toString index).toList ++ [']']))
          (Expr.index base index).render.toList ↔
        base.head.isCast = true ∨ IsPostfix isType base.head.render.toList)) ∧
    ∃ base viaPointer, base = v.expanded d t steps ∧
      (region v [field]).expanded d t steps = .field base field viaPointer ∧
      (Applies isType base.operand ((if viaPointer then ['-', '>'] else ['.']) ++ field.toList)
          (Expr.field base field viaPointer).render.toList ↔
        base.head.isCast = true ∨ IsPostfix isType base.head.render.toList) := by
  obtain ⟨hexpr, htables⟩ := isSealed_bind d ht hv
  have hinner : (v.expanded d t steps).IsSealed := Expr.isSealed_expand htables hexpr steps
  have happlies {base : Expr} (hbase : base.IsSealed) {access text : List Char}
      (htext : text = base.operand ++ access)
      (haccess : IsPostfix isType (base.operand ++ access) ↔ IsPostfix isType base.operand) :
      Applies isType base.operand access text ↔
        base.head.isCast = true ∨ IsPostfix isType base.head.render.toList := by
    rw [← Expr.isPostfix_operand_iff hisType hbase]
    exact ⟨fun h => h.base_isPostfix, fun h => ⟨htext, h, by rwa [htext, haccess]⟩⟩
  constructor
  · obtain ⟨base, hbase, hindex⟩ := expanded_element d v index type t steps
    have hsealed : base.IsSealed := by
      rcases hbase with rfl | rfl
      · exact hinner
      · exact ⟨enclosed_pointer htype, hinner⟩
    exact ⟨base, hbase, hindex, happlies hsealed (Expr.toList_render_index base index)
      (isPostfix_index_iff (Expr.isBare_toString index))⟩
  · obtain ⟨viaPointer, hregion⟩ := expanded_region d v field t steps
    exact ⟨_, viaPointer, rfl, hregion, happlies hinner (Expr.toList_render_field _ _ _)
      (isPostfix_field_iff (Expr.link_cases viaPointer) hfield)⟩

/-- A symbol that is bound to an element. -/
def referringTables : Tables where
  exprs := .ofList [("reg_$1", Expr.index (.ident "q") 1)]

/-- A C program without names for types. -/
def noTypes (_ : List Char) : Bool := false

/-- The element of a symbol is that of the whole element that is substituted for it. -/
theorem applies_referringTables :
    (∀ s, noTypes ('(' :: s) = false) ∧ referringTables.IsSealed ∧
      (reference "reg_$1" "reg_$1").IsSealed ∧ Enclosed "int".toList ∧ IsIdent "val".toList ∧
      (element (reference "reg_$1" "reg_$1") 2 "int" []).expanded {} referringTables 1 =
        .index (.index (.ident "q") 1) 2 ∧
      Applies noTypes "q[1]".toList "[2]".toList "q[1][2]".toList := by
  have hno : ∀ s, noTypes ('(' :: s) = false := fun _ => rfl
  have htables : referringTables.IsSealed := by
    intro s e he
    have hlist : referringTables.exprs.toList = [("reg_$1", Expr.index (.ident "q") 1)] := by
      decide +kernel
    have hmem := Table.mem_toList_of_getElem? he
    rw [hlist] at hmem
    obtain ⟨rfl, rfl⟩ : s = "reg_$1" ∧ e = .index (.ident "q") 1 := by simpa using hmem
    show Enclosed "q".toList
    decide
  have hvalue : (reference "reg_$1" "reg_$1").IsSealed := by
    show Enclosed "reg_$1".toList
    decide
  have htype : Enclosed "int".toList := by decide
  have hident {w : List Char} (hw : w ≠ []) (hchars : w.all isNameChar = true)
      (hnot : w ∉ namedOperators) : IsIdent w := ⟨hw, List.all_eq_true.1 hchars, hnot⟩
  have hfield : IsIdent "val".toList := hident (by decide) (by decide) (by decide)
  have hexpr : (element (reference "reg_$1" "reg_$1") 2 "int" []).expanded {} referringTables 1 =
      .index (.index (.ident "q") 1) 2 := by
    decide +kernel
  obtain ⟨⟨base, -, hbase, happlies⟩, -⟩ := applies_iff {} hno htables hvalue 2 htype hfield 1
  rw [hexpr] at hbase
  cases hbase
  exact ⟨hno, htables, hvalue, htype, hfield, hexpr,
    happlies.2 (.inr (.ident (hident (by decide) (by decide) (by decide))))⟩

/-- The index behind a sum is applied to its last operand alone. -/
theorem not_applies_sum :
    (({} : Declarations).bindText defaultLimit "Element\x7ba + b,2,int\x7d" {}).1.map (·.expr) =
        .ok (.index (.ident "a + b") 2) ∧
      (Expr.index (.ident "a + b") 2).render = "a + b[2]" ∧
      ∀ isType, ¬Applies isType "a + b".toList "[2]".toList "a + b[2]".toList := by
  refine ⟨by decide +kernel, by decide +kernel, fun isType h => ?_⟩
  have hlast : "a + b".toList.getLast? = some 'b' := by decide
  exact not_isPostfix_operation hlast (by decide) (by decide) (by decide) h.base_isPostfix

end Value

end TestSynth
