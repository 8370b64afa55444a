import TestSynth.Proofs.Denotation

/-!
# The shape of what is bound

Which symbol a value stands for, whether it is a mere name, and where its type is looked up, can be
told without the tables.  These only say what the type is.

* `Value.symbol_bind`, `Value.name?_bind` : the symbol and the name of a bound value.
* `Value.typeOf?_bind` : its type is that of its symbol, or that of a global variable.
* `Value.slot_bind` : its slot is that of its symbol.
* `Value.bindElement_bind` : the element of a bound value, by the type of its base.
-/

namespace TestSynth

variable (d : Declarations)

/-! ### Fields -/

namespace Declarations

theorem exists_takeFields {fields : List String} (hne : fields ≠ []) (e : Expr) (viaPointer : Bool)
    (record : Option String) :
    ∃ base field viaPointer', d.takeFields e viaPointer record fields =
      .field base field viaPointer' := by
  induction fields generalizing e viaPointer record with
  | nil => exact absurd rfl hne
  | cons field fields ih =>
    rw [takeFields]
    cases fields with
    | nil => exact ⟨e, field, viaPointer, rfl⟩
    | cons field' fields => exact ih (List.cons_ne_nil field' fields) _ _ _

/-- The same fields are taken from different expressions with different results. -/
theorem takeFields_inj {e e' : Expr} {viaPointer : Bool} {record : Option String}
    {fields : List String} :
    d.takeFields e viaPointer record fields = d.takeFields e' viaPointer record fields ↔
      e = e' := by
  induction fields generalizing e e' viaPointer record with
  | nil => exact Iff.rfl
  | cons field fields ih =>
    rw [takeFields, takeFields, ih]
    simp

end Declarations

/-! ### Values -/

namespace Value

/-- The name that a value is written as, if it is one. -/
def name? : Value → Option String
  | atom text => some text
  | reference _ text => some text
  | element .. => none
  | region inner fields => if fields.isEmpty then inner.name? else none
  | definition _ _ inner _ => inner.name?

/-- The type of a value: that of its symbol, or of the global variable that it names. -/
def typeIn? (t : Tables) (v : Value) : Option String :=
  (v.symbol?.bind fun symbol => t.types[symbol]?).or (v.name?.bind d.variableType?)

/-- Where the type of a base says nothing about what is stored, the element is that of a cast. -/
def castBase (t : Tables) (base : Value) (type : String) (e : Expr) : Expr :=
  if (base.typeIn? d t).any d.isVoid then .cast (type ++ " *") e else e

/-- The tables after a base turned out to be a buffer of the type, if that was not known. -/
def narrow (t : Tables) (base : Value) (type : String) : Tables :=
  if (base.typeIn? d t).any d.isVoid then
    { t with
      types := base.symbol?.elim t.types fun symbol => t.types.insert symbol (type ++ " *") }
  else t

variable {d} {t : Tables} {v : Value}

theorem bind_element (base : Value) (index : Int) (type : String) (fields : List String) :
    (element base index type fields).bind d t =
      let e := bindElement d (base.bind d t).1 index type (base.bind d t).2
      (if fields.isEmpty then e.1
        else ⟨d.takeFields e.1.expr (type.toList.contains '*') (some type) fields, none, none⟩,
        e.2) := by
  simp only [bind]
  split <;> rfl

theorem bind_region (inner : Value) (fields : List String) :
    (region inner fields).bind d t =
      (if fields.isEmpty then (inner.bind d t).1
        else
          let declared := d.typeOf? (inner.bind d t).2 (inner.bind d t).1
          ⟨d.takeFields (inner.bind d t).1.expr (declared.any d.isPointerType) declared fields,
            none, none⟩,
        (inner.bind d t).2) := by
  simp only [bind]
  split <;> rfl

theorem symbol_bind (v : Value) : (v.bind d t).1.symbol = v.symbol? := by
  induction v generalizing t with
  | atom text => rfl
  | reference symbol text => rfl
  | element base index type fields ih =>
    obtain ⟨e, types, h⟩ := bindElement_eq d (base.bind d t).1 index type (base.bind d t).2
    rw [bind_element, h]
    dsimp only
    split <;> rfl
  | region inner fields ih =>
    rw [bind_region, symbol?]
    split
    · exact ih
    · rfl
  | definition name type inner source ih => rfl

/-- What a value is bound to: the name that it is written as, or an element or a field if it is
none. -/
inductive BoundTo : Option String → Expr → Prop
  | name (text : String) : BoundTo (some text) (.ident text)
  | element (base : Expr) (index : Int) : BoundTo none (.index base index)
  | field (base : Expr) (field : String) (viaPointer : Bool) :
    BoundTo none (.field base field viaPointer)

theorem BoundTo.name?_eq {name : Option String} {e : Expr} (h : BoundTo name e) :
    e.name? = name := by
  cases h <;> rfl

theorem BoundTo.isCast_eq {name : Option String} {e : Expr} (h : BoundTo name e) :
    e.isCast = false := by
  cases h <;> rfl

theorem boundTo_takeFields {fields : List String} (hne : fields.isEmpty ≠ true) (e : Expr)
    (viaPointer : Bool) (record : Option String) :
    BoundTo none (d.takeFields e viaPointer record fields) := by
  obtain ⟨base, field, viaPointer', h⟩ :=
    d.exists_takeFields (mt List.isEmpty_iff.2 hne) e viaPointer record
  rw [h]
  exact .field base field viaPointer'

theorem boundTo_bind (v : Value) : BoundTo v.name? (v.bind d t).1.expr := by
  induction v generalizing t with
  | atom text => exact .name text
  | reference symbol text => exact .name text
  | element base index type fields ih =>
    obtain ⟨e, types, h⟩ := bindElement_eq d (base.bind d t).1 index type (base.bind d t).2
    rw [bind_element, h, name?]
    dsimp only
    split
    · exact .element e index
    · next hfields => exact boundTo_takeFields hfields _ _ _
  | region inner fields ih =>
    rw [bind_region, name?]
    dsimp only
    split
    · exact ih
    · next hfields => exact boundTo_takeFields hfields _ _ _
  | definition name type inner source ih => exact ih

theorem name?_bind (v : Value) : (v.bind d t).1.expr.name? = v.name? := (boundTo_bind v).name?_eq

/-- No value is bound to a cast: only the base of an element is cast. -/
theorem isCast_bind (v : Value) : (v.bind d t).1.expr.isCast = false := (boundTo_bind v).isCast_eq

theorem typeOf?_bind (u : Tables) (v : Value) : d.typeOf? u (v.bind d t).1 = v.typeIn? d u := by
  rw [Declarations.typeOf?, symbol_bind, name?_bind, typeIn?]

/-- The slot of a value that stands for a symbol is that of the symbol. -/
theorem slot_bind {s : String} (h : v.symbol? = some s) :
    (v.bind d t).1.slot = (v.bind d t).2.slots[s]? := by
  induction v, h using symbol?_induction with
  | reference text => rfl
  | region inner h ih =>
    rw [bind_region, List.isEmpty_nil, if_pos rfl]
    exact ih
  | definition type inner source => rfl

theorem slot_bind_of_name? {name : String} (hsymbol : v.symbol? = none)
    (hname : v.name? = some name) : (v.bind d t).1.slot = none := by
  induction v generalizing t with
  | atom text => rfl
  | reference symbol text => cases hsymbol
  | element base index type fields ih => cases hname
  | region inner fields ih =>
    rw [symbol?] at hsymbol
    rw [Value.name?] at hname
    split at hname
    · next hfields =>
      rw [if_pos hfields] at hsymbol
      rw [bind_region, if_pos hfields]
      exact ih hsymbol hname
    · cases hname
  | definition name type inner source ih => cases hsymbol

/-- The element of a bound base. -/
theorem bindElement_bind (base : Value) (index : Int) (type : String) :
    bindElement d (base.bind d t).1 index type (base.bind d t).2 =
      elementOver (base.bind d t).1 index
        (castBase d (base.bind d t).2 base type (base.bind d t).1.expr)
        (narrow d (base.bind d t).2 base type) := by
  have htype : d.typeOf? (base.bind d t).2 (base.bind d t).1 =
      base.typeIn? d (base.bind d t).2 := typeOf?_bind _ base
  rw [castBase, narrow]
  cases hvoid : (base.typeIn? d (base.bind d t).2).any d.isVoid with
  | true =>
    rw [bindElement_of_void d (by rw [htype]; exact hvoid), symbol_bind]
    rfl
  | false =>
    rw [bindElement_of_typed d (by rw [htype]; exact hvoid)]
    rfl

end Value

/-! ### Texts -/

/-- A text that can be read is bound as its value is, after what the value refers to. -/
theorem Declarations.bindText_of_parse {d : Declarations} {limit : Nat} {text : String} {v : Value}
    {t t' : Tables} (hread : Value.parse limit text = .ok v)
    (hfollow : follow (d.resolve limit t.parameters.keys) v t = (.ok (), t')) :
    d.bindText limit text t = (.ok (v.bind d t').1, (v.bind d t').2) := by
  rw [bindText, hread, bindReading_ok, hfollow]

end TestSynth
