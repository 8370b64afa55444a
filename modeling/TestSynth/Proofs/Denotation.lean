import TestSynth.Proofs.Accesses

/-!
# Denotation

What a value denotes once all symbols in it are known: then it is read off the tables, and nothing
is registered on the way.  The types of the symbols are taken as they were declared; which of them
the elements of a value narrow is listed apart.

* `Value.denote` : what a value denotes, read off the tables.
* `Value.touched`, `Value.narrowings` : its accesses, and the types that it narrows.
* `Value.settle` : the tables with the symbols that a value defines.
* `Value.denote_congr` : only the slots and types of the symbols in a value matter.
-/

namespace TestSynth

/-- The slot and the type of a symbol are the same in both tables. -/
structure Tables.AgreeOn (t t' : Tables) (s : String) : Prop where
  slots : t'.slots[s]? = t.slots[s]?
  types : t'.types[s]? = t.types[s]?

/-- A type that resolves to something that says nothing about what is stored. -/
def Declarations.isVoid (d : Declarations) (type : String) : Bool := isVoidLike (d.resolveType type)

/-- The definition of a symbol inside a value. -/
structure Definition where
  name : String
  type : String
  inner : Value
  deriving DecidableEq, Repr

namespace Value

/-- The definitions in a value, the outermost first. -/
def definitions : Value → List Definition
  | atom _ => []
  | reference .. => []
  | element base .. => base.definitions
  | region inner _ => inner.definitions
  | definition name type inner _ => ⟨name, type, inner⟩ :: inner.definitions

/-- The symbols that a value is about: the one that it refers to, and those that it defines. -/
def symbols (v : Value) : List String := v.referent?.toList ++ v.definitions.map (·.name)

/-- The text of the innermost atom. -/
def leaf : Value → String
  | atom text => text
  | reference _ text => text
  | element base .. => base.leaf
  | region inner _ => inner.leaf
  | definition _ _ inner _ => inner.leaf

/-- The symbol whose value this is. -/
def symbol? : Value → Option String
  | atom _ => none
  | reference symbol _ => some symbol
  | element .. => none
  | region inner fields => if fields.isEmpty then inner.symbol? else none
  | definition name .. => some name

/-- The symbols whose types a value looks at: those of which it takes an element or a field. -/
def looks : Value → List String
  | atom _ => []
  | reference .. => []
  | element base .. => base.looks ++ base.symbol?.toList
  | region inner fields => inner.looks ++ if fields.isEmpty then [] else inner.symbol?.toList
  | definition _ _ inner _ => inner.looks

variable (d : Declarations) (t : Tables)

/-- What a value denotes if all its symbols are known. -/
def denote : Value → Bound
  | atom text => ⟨.ident text, none, none⟩
  | reference symbol text => ⟨.ident text, some symbol, t.slots[symbol]?⟩
  | element base index type fields =>
    let b := denote base
    let e := if (d.typeOf? t b).any d.isVoid then .cast (type ++ " *") b.expr else b.expr
    if fields.isEmpty then ⟨.index e index, none, b.slot.map Slot.element⟩
    else ⟨d.takeFields (.index e index) (type.toList.contains '*') (some type) fields, none, none⟩
  | region inner fields =>
    let b := denote inner
    if fields.isEmpty then b
    else
      let declared := d.typeOf? t b
      ⟨d.takeFields b.expr (declared.any d.isPointerType) declared fields, none, none⟩
  | definition name _ inner _ => ⟨(denote inner).expr, some name, t.slots[name]?⟩

/-- The accesses of a value if all its symbols are known. -/
def touched : Value → List Access
  | atom _ => []
  | reference .. => []
  | element base index _ _ =>
    touched base ++ ((denote d t base).slot.map fun slot => Access.mk slot index).toList
  | region inner _ => touched inner
  | definition _ _ inner _ => touched inner

/-- The symbols that turn out to be buffers of something, with their narrowed types. -/
def narrowings : Value → List (String × String)
  | atom _ => []
  | reference .. => []
  | element base _ type _ =>
    narrowings base ++
      if (d.typeOf? t (denote d t base)).any d.isVoid then
        (base.symbol?.map fun symbol => (symbol, type ++ " *")).toList
      else []
  | region inner _ => narrowings inner
  | definition _ _ inner _ => narrowings inner

/-- The tables after the symbols that a value defines are registered. -/
def settle : Value → Tables → Tables
  | atom _, t => t
  | reference .., t => t
  | element base .., t => base.settle t
  | region inner _, t => inner.settle t
  | definition name type inner source, t =>
    let t := inner.settle t
    let b := denote d t inner
    t.register name source b.expr (some (d.resolveType type)) (b.slot.getD (.ofRoot name))

variable {d} {t} {t' : Tables} {v : Value}

theorem symbol_denote (v : Value) : (denote d t v).symbol = v.symbol? := by
  induction v with
  | atom text => rfl
  | reference symbol text => rfl
  | element base index type fields ih =>
    rw [denote]
    split <;> rfl
  | region inner fields ih =>
    rw [denote, symbol?]
    split
    · exact ih
    · rfl
  | definition name type inner source ih => rfl

theorem mem_symbols_definition {name type source s : String} {inner : Value}
    (h : s ∈ inner.symbols) : s ∈ (definition name type inner source).symbols := by
  rcases List.mem_append.1 h with h | h
  · exact List.mem_append_left _ h
  · exact List.mem_append_right _ (List.mem_cons_of_mem name h)

theorem symbols_subset_of_mem {x : Definition} (hx : x ∈ v.definitions) {s : String}
    (hs : s ∈ x.inner.symbols) : s ∈ v.symbols := by
  induction v with
  | atom text => cases hx
  | reference symbol text => cases hx
  | element base index type fields ih => exact ih hx
  | region inner fields ih => exact ih hx
  | definition name type inner source ih =>
    rcases List.mem_cons.1 hx with rfl | hx
    · exact mem_symbols_definition hs
    · exact mem_symbols_definition (ih hx)

/-- Induction over the values that stand for a symbol: they refer to it or define it, perhaps inside
regions without fields. -/
@[elab_as_elim]
theorem symbol?_induction {s : String} {motive : (v : Value) → v.symbol? = some s → Prop}
    (reference : ∀ text, motive (.reference s text) rfl)
    (region : ∀ inner (h : inner.symbol? = some s), motive inner h → motive (.region inner []) h)
    (definition : ∀ type inner source, motive (.definition s type inner source) rfl)
    (v : Value) (h : v.symbol? = some s) : motive v h := by
  induction v with
  | atom text => cases h
  | reference symbol text =>
    cases h
    exact reference text
  | element base index type fields ih => cases h
  | region inner fields ih =>
    cases fields with
    | nil => exact region inner h (ih h)
    | cons field fields => cases h
  | definition name type inner source ih =>
    cases h
    exact definition type inner source

theorem mem_symbols_of_symbol? {s : String} (h : v.symbol? = some s) : s ∈ v.symbols := by
  induction v, h using symbol?_induction with
  | reference text => exact List.mem_singleton_self s
  | region inner h ih => exact ih
  | definition type inner source => exact List.mem_append_right _ List.mem_cons_self

theorem mem_symbols_of_denote {s : String} (h : (denote d t v).symbol = some s) : s ∈ v.symbols :=
  mem_symbols_of_symbol? (by rwa [symbol_denote] at h)

/-- A value that stands for a symbol defines it, or refers to it by its text. -/
theorem name?_denote {s : String} (h : v.symbol? = some s) :
    (∃ x ∈ v.definitions, x.name = s) ∨
      v.referent?.isSome = true ∧ (denote d t v).expr.name? = some v.leaf := by
  induction v, h using symbol?_induction with
  | reference text => exact .inr ⟨rfl, rfl⟩
  | region inner h ih => exact ih
  | definition type inner source => exact .inl ⟨_, List.mem_cons_self, rfl⟩

theorem mem_looks_of_narrowings {n : String × String} (h : n ∈ narrowings d t v) :
    n.1 ∈ v.looks := by
  induction v with
  | atom text => cases h
  | reference symbol text => cases h
  | element base index type fields ih =>
    rcases List.mem_append.1 h with h | h
    · exact List.mem_append_left _ (ih h)
    · split at h
      · obtain ⟨s, hs, rfl⟩ := Option.map_eq_some_iff.1 (Option.mem_toList.1 h)
        exact List.mem_append_right _ (Option.mem_toList.2 hs)
      · cases h
  | region inner fields ih => exact List.mem_append_left _ (ih h)
  | definition name type inner source ih => exact ih h

section Congruence

variable (h : ∀ s ∈ v.symbols, Tables.AgreeOn t t' s)

include h

theorem typeOf?_congr {b : Bound} (hb : b.symbol = v.symbol?) : d.typeOf? t' b = d.typeOf? t b := by
  rw [Declarations.typeOf?, Declarations.typeOf?, hb]
  cases hs : v.symbol? with
  | none => rfl
  | some s => rw [Option.bind_some, Option.bind_some, (h s (mem_symbols_of_symbol? hs)).types]

/-- **Only the slots and types of its own symbols matter for a value.** -/
theorem denote_congr : denote d t' v = denote d t v := by
  induction v with
  | atom text => rfl
  | reference symbol text => rw [denote, denote, (h symbol (List.mem_singleton_self symbol)).slots]
  | element base index type fields ih =>
    rw [denote, denote, ih h, typeOf?_congr (v := base) h (symbol_denote base)]
  | region inner fields ih =>
    rw [denote, denote, ih h, typeOf?_congr (v := inner) h (symbol_denote inner)]
  | definition name type inner source ih =>
    rw [denote, denote, ih fun s hs => h s (mem_symbols_definition hs),
      (h name (List.mem_append_right _ List.mem_cons_self)).slots]

theorem touched_congr : touched d t' v = touched d t v := by
  induction v with
  | atom text => rfl
  | reference symbol text => rfl
  | element base index type fields ih => rw [touched, touched, ih h, denote_congr (v := base) h]
  | region inner fields ih => exact ih h
  | definition name type inner source ih => exact ih fun s hs => h s (mem_symbols_definition hs)

theorem narrowings_congr : narrowings d t' v = narrowings d t v := by
  induction v with
  | atom text => rfl
  | reference symbol text => rfl
  | element base index type fields ih =>
    rw [narrowings, narrowings, ih h, denote_congr (v := base) h,
      typeOf?_congr (v := base) h (symbol_denote base)]
  | region inner fields ih => exact ih h
  | definition name type inner source ih => exact ih fun s hs => h s (mem_symbols_definition hs)

end Congruence

end Value

end TestSynth
