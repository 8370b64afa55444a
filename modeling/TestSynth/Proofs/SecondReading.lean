import TestSynth.Proofs.Growth
import TestSynth.Proofs.Settled
import TestSynth.Proofs.Shapes

/-!
# Reading a text twice

The tables that a text leaves behind know all that the text tells, so it tells nothing new when it
is read again.  But a base whose type says nothing about what is stored is cast, and gets a type
that may say it: then it is not cast the second time.

* `Value.rewrites` : the symbols that get types from the elements of a value.
* `Value.castBase_again` : which bases are cast again.
* `Value.repeats_bind` : a value is bound to the same but for these casts, and changes nothing.
* `Declarations.bindText_again` : so it is with the text of a value.
-/

namespace TestSynth

variable {d : Declarations}

/-! ### Tables that know already -/

theorem insert_eq_self {κ α : Type} [Ord κ] [Std.TransOrd κ] [Std.LawfulEqOrd κ]
    {m : Std.ExtTreeMap κ α} {key : κ} {value : α} (h : m[key]? = some value) :
    m.insert key value = m := by
  refine Std.ExtTreeMap.ext_getElem? fun key' => ?_
  rw [Std.ExtTreeMap.getElem?_insert]
  split
  · next heq => rw [← Std.compare_eq_iff_eq.1 heq, h]
  · rfl

theorem Tables.recordSize_eq_self {t : Tables} {slot : Slot} {size known : Nat}
    (h : t.sizes[slot]? = some known) (hle : size ≤ known) : t.recordSize slot size = t := by
  rw [recordSize, h, Option.getD_some, Nat.max_eq_left hle, insert_eq_self h]

theorem Tables.agreeOn_register {t : Tables} {name s : String} (hs : s ≠ name) (text : String)
    (e : Expr) (type? : Option String) (slot : Slot) :
    AgreeOn t (t.register name text e type? slot) s := by
  cases hreg : t.isRegistered name with
  | true =>
    rw [register_of_registered hreg]
    exact ⟨rfl, rfl⟩
  | false => exact (Adds.register hreg text).agreeOn hs

namespace Value

/-! ### Symbols -/

theorem mem_symbols_of_mem_looks {v : Value} {s : String} (h : s ∈ v.looks) : s ∈ v.symbols := by
  induction v with
  | atom text => cases h
  | reference symbol text => cases h
  | element base index type fields ih =>
    rcases List.mem_append.1 h with h | h
    · exact ih h
    · exact mem_symbols_of_symbol? (v := base) (Option.mem_toList.1 h)
  | region inner fields ih =>
    rw [looks] at h
    rcases List.mem_append.1 h with h | h
    · exact ih h
    · split at h
      · cases h
      · exact mem_symbols_of_symbol? (v := inner) (Option.mem_toList.1 h)
  | definition name type inner source ih => exact mem_symbols_definition (ih h)

theorem nodup_of_definition {name type source : String} {inner : Value}
    (h : (definition name type inner source).symbols.Nodup) :
    name ∉ inner.symbols ∧ inner.symbols.Nodup :=
  List.nodup_cons.1 (List.nodup_middle.1 h)

theorem not_mem_looks_of_symbol? {v : Value} (hnodup : v.symbols.Nodup) {s : String}
    (h : v.symbol? = some s) : s ∉ v.looks := by
  induction v, h using symbol?_induction with
  | reference text => exact List.not_mem_nil
  | region inner h ih =>
    rw [looks, List.isEmpty_nil, if_pos rfl, List.append_nil]
    exact ih hnodup
  | definition type inner source =>
    exact fun hlooks => (nodup_of_definition hnodup).1 (mem_symbols_of_mem_looks hlooks)

/-! ### Types that are rewritten -/

/-- The symbol of a base and the type that an element gives it, if its type says nothing about what
is stored. -/
def rewrite (d : Declarations) (t : Tables) (base : Value) (type : String) :
    List (String × String) :=
  if (base.typeIn? d t).any d.isVoid then
    (base.symbol?.map fun symbol => (symbol, type ++ " *")).toList
  else []

/-- The symbols that get a type from the elements of a value, with these types. -/
def rewrites (d : Declarations) : Value → Tables → List (String × String)
  | atom _, _ => []
  | reference .., _ => []
  | element base _ type _, t => base.rewrites d t ++ rewrite d (base.bind d t).2 base type
  | region inner _, t => inner.rewrites d t
  | definition _ _ inner _, t => inner.rewrites d t

theorem mem_looks_of_rewrites {v : Value} {t : Tables} {n : String × String}
    (h : n ∈ v.rewrites d t) : n.1 ∈ v.looks := by
  induction v generalizing t with
  | atom text => cases h
  | reference symbol text => cases h
  | element base index type fields ih =>
    rcases List.mem_append.1 h with h | h
    · exact List.mem_append_left _ (ih h)
    · refine List.mem_append_right _ (Option.mem_toList.2 ?_)
      rw [rewrite] at h
      split at h
      · obtain ⟨s, hs, rfl⟩ := Option.map_eq_some_iff.1 (Option.mem_toList.1 h)
        exact hs
      · cases h
  | region inner fields ih => exact List.mem_append_left _ (ih h)
  | definition name type inner source ih => exact ih h

theorem typeIn?_congr {v : Value} {t u : Tables}
    (h : ∀ s, v.symbol? = some s → u.types[s]? = t.types[s]?) :
    v.typeIn? d u = v.typeIn? d t := by
  rw [typeIn?, typeIn?]
  cases hs : v.symbol? with
  | none => rfl
  | some s => rw [Option.bind_some, Option.bind_some, h s hs]

/-- **A base is cast again if the type that it was given says nothing either.** If it says what is
stored, the base is cast no more. -/
theorem castBase_again {base : Value} {type : String} {t u : Tables}
    (h : ∀ s, base.symbol? = some s → u.types[s]? = (narrow d t base type).types[s]?)
    {e e' : Expr} (he' : e'.isCast = false) :
    narrow d u base type = u ∧
      (castBase d u base type e' = castBase d t base type e ↔
        e' = e ∧ ∀ n ∈ rewrite d t base type, d.isVoid n.2 = true) := by
  have htype := typeIn?_congr (d := d) h
  cases hvoid : (base.typeIn? d t).any d.isVoid with
  | false =>
    rw [narrow, hvoid, if_neg Bool.false_ne_true] at htype
    rw [narrow, castBase, castBase, rewrite, htype, hvoid]
    simp
  | true =>
    cases hsymbol : base.symbol? with
    | none =>
      have htype : base.typeIn? d u = base.typeIn? d t := typeIn?_congr (by simp [hsymbol])
      rw [narrow, castBase, castBase, rewrite, htype, hvoid, hsymbol]
      simp
    | some s =>
      have hs := h s hsymbol
      rw [narrow, if_pos hvoid, hsymbol] at hs
      simp only [Option.elim_some, Std.ExtTreeMap.getElem?_insert_self] at hs
      have htype : base.typeIn? d u = some (type ++ " *") := by
        rw [typeIn?, hsymbol, Option.bind_some, hs, Option.some_or]
      rw [narrow, castBase, castBase, rewrite, htype, hvoid, hsymbol]
      cases hstill : d.isVoid (type ++ " *") with
      | true => simp [hstill, insert_eq_self hs]
      | false =>
        -- the first expression is a cast, the second is none
        refine ⟨by simp [hstill], iff_of_false (fun heq => ?_) fun hall => ?_⟩
        · rw [if_pos rfl, Option.any_some, hstill, if_neg Bool.false_ne_true] at heq
          rw [heq] at he'
          cases he'
        · have := hall.2 (s, type ++ " *") (by simp)
          rw [hstill] at this
          cases this

/-! ### The second time -/

/-- The tables `u` know of a value what the tables `t` do: the slots of its symbols, the types that
it looks at, and sizes that are as large. -/
structure Known (t u : Tables) (v : Value) : Prop where
  slots : ∀ s ∈ v.symbols, u.slots[s]? = t.slots[s]?
  types : ∀ s ∈ v.looks, u.types[s]? = t.types[s]?
  sizes : ∀ (slot : Slot) (size : Nat), t.sizes[slot]? = some size →
    ∃ size', u.sizes[slot]? = some size' ∧ size ≤ size'

/-- What comes of binding a value against `u` that was bound against `t` before. -/
structure Repeats (d : Declarations) (t u : Tables) (v : Value) : Prop where
  tables : (v.bind d u).2 = u
  slot : (v.bind d u).1.slot = (v.bind d t).1.slot
  expr : (v.bind d u).1.expr = (v.bind d t).1.expr ↔
    ∀ n ∈ v.rewrites d t, d.isVoid n.2 = true

section

variable {t u : Tables}

theorem narrow_eq (t : Tables) (base : Value) (type : String) :
    ∃ types : Table String, narrow d t base type = { t with types } ∧
      ∀ s, base.symbol? ≠ some s → types[s]? = t.types[s]? := by
  rw [narrow]
  split
  · refine ⟨_, rfl, fun s hs => ?_⟩
    cases hsymbol : base.symbol? with
    | none => rfl
    | some s' =>
      rw [Option.elim_some, Std.ExtTreeMap.getElem?_insert, if_neg]
      rw [Std.compare_eq_iff_eq]
      rintro rfl
      exact hs hsymbol
  · exact ⟨t.types, rfl, fun s _ => rfl⟩

/-- Who knows of an element knows of its base, knows the type that the base was given, and has
recorded the size. -/
theorem Known.base {base : Value} {index : Int} {type : String} {fields : List String}
    (h : Known ((element base index type fields).bind d t).2 u (element base index type fields))
    (hnodup : base.symbols.Nodup) :
    Known (base.bind d t).2 u base ∧
      (∀ s, base.symbol? = some s →
        u.types[s]? = (narrow d (base.bind d t).2 base type).types[s]?) ∧
      ∀ slot, (base.bind d t).1.slot = some slot →
        u.recordSize slot (sizeForIndex index) = u := by
  rw [bind_element, bindElement_bind] at h
  obtain ⟨types, hnarrow, hother⟩ := narrow_eq (d := d) (base.bind d t).2 base type
  rw [hnarrow] at h ⊢
  dsimp only at h
  have hlooks {s : String} (hs : s ∈ base.looks) : s ∈ (element base index type fields).looks :=
    List.mem_append_left _ hs
  have htypes {s : String} (hs : s ∈ (element base index type fields).looks) :
      u.types[s]? = types[s]? := by
    rw [h.types s hs, elementOver]
    cases (base.bind d t).1.slot <;> rfl
  have hgrows : Grows d (fun _ => True) { (base.bind d t).2 with types }
      (elementOver (base.bind d t).1 index
        (castBase d (base.bind d t).2 base type (base.bind d t).1.expr)
        { (base.bind d t).2 with types }).2 := .elementOver ..
  refine ⟨⟨fun s hs => ?_, fun s hs => ?_, fun slot size hsize => ?_⟩, fun s hs => ?_,
    fun slot hslot => ?_⟩
  · rw [h.slots s hs, elementOver]
    cases (base.bind d t).1.slot <;> rfl
  · rw [htypes (hlooks hs)]
    exact hother s fun hsymbol => not_mem_looks_of_symbol? hnodup hsymbol hs
  · obtain ⟨size', hsize', hle⟩ := hgrows.sizes slot size hsize
    obtain ⟨size'', hsize'', hle'⟩ := h.sizes slot size' hsize'
    exact ⟨size'', hsize'', Nat.le_trans hle hle'⟩
  · exact htypes (List.mem_append_right _ (Option.mem_toList.2 hs))
  · rw [elementOver, hslot] at h
    obtain ⟨size, hsize, hle⟩ := h.sizes slot _ Std.ExtTreeMap.getElem?_insert_self
    exact Tables.recordSize_eq_self hsize (Nat.le_trans (Nat.le_max_right _ _) hle)

theorem Known.inner_of_region {inner : Value} {fields : List String}
    (h : Known ((region inner fields).bind d t).2 u (region inner fields)) :
    Known (inner.bind d t).2 u inner ∧
      (¬fields.isEmpty → inner.typeIn? d u = inner.typeIn? d (inner.bind d t).2) := by
  rw [bind_region] at h
  refine ⟨⟨h.slots, fun s hs => h.types s (List.mem_append_left _ hs), h.sizes⟩, fun hfields => ?_⟩
  refine typeIn?_congr fun s hs => h.types s (List.mem_append_right _ ?_)
  rw [if_neg hfields]
  exact Option.mem_toList.2 hs

/-- Who knows of a definition knows of what is inside, and has registered the symbol. -/
theorem Known.inner_of_definition {name type source : String} {inner : Value}
    (h : Known ((definition name type inner source).bind d t).2 u
      (definition name type inner source)) (hname : name ∉ inner.symbols) :
    Known (inner.bind d t).2 u inner ∧ u.isRegistered name = true ∧
      u.slots[name]? = ((definition name type inner source).bind d t).2.slots[name]? := by
  have hself := h.slots name (List.mem_append_right _ List.mem_cons_self)
  have hregistered : u.isRegistered name = true := by
    have hreg := (inner.bind d t).2.isRegistered_register name source (inner.bind d t).1.expr
      (some (d.resolveType type)) ((inner.bind d t).1.slot.getD (.ofRoot name))
    rw [Tables.isRegistered_iff, Std.ExtTreeMap.mem_iff_isSome_getElem?] at hreg ⊢
    rw [hself]
    exact hreg
  have hother {s : String} (hs : s ∈ inner.symbols) : Tables.AgreeOn (inner.bind d t).2
      ((definition name type inner source).bind d t).2 s :=
    Tables.agreeOn_register (by rintro rfl; exact hname hs) _ _ _ _
  refine ⟨⟨fun s hs => ?_, fun s hs => ?_, fun slot size hsize => ?_⟩, hregistered, hself⟩
  · rw [h.slots s (mem_symbols_definition hs)]
    exact (hother hs).slots
  · rw [h.types s hs]
    exact (hother (mem_symbols_of_mem_looks hs)).types
  · refine h.sizes slot size ?_
    exact (congrArg (·[slot]?) (Tables.sizes_register ..)).trans hsize

end

theorem types_of_mem_rewrites {v : Value} {t : Tables} (hnodup : v.symbols.Nodup)
    {n : String × String} (h : n ∈ v.rewrites d t) :
    (v.bind d t).2.types[n.1]? = some n.2 := by
  induction v generalizing t with
  | atom text => cases h
  | reference symbol text => cases h
  | element base index type fields ih =>
    obtain ⟨types, hnarrow, hother⟩ := narrow_eq (d := d) (base.bind d t).2 base type
    have htypes : ((element base index type fields).bind d t).2.types = types := by
      rw [bind_element, bindElement_bind, hnarrow, elementOver]
      cases (base.bind d t).1.slot <;> rfl
    rw [htypes]
    rcases List.mem_append.1 h with h | h
    · -- a symbol that is rewritten in the base is not the one that the element narrows
      rw [hother n.1 fun hsymbol => not_mem_looks_of_symbol? (v := base) hnodup hsymbol
        (mem_looks_of_rewrites (v := base) h)]
      exact ih hnodup h
    · rw [rewrite] at h
      split at h
      · next hvoid =>
        obtain ⟨s, hs, rfl⟩ := Option.map_eq_some_iff.1 (Option.mem_toList.1 h)
        rw [narrow, if_pos hvoid, hs] at hnarrow
        have hinsert : (base.bind d t).2.types.insert s (type ++ " *") = types :=
          congrArg Tables.types hnarrow
        rw [← hinsert]
        exact Std.ExtTreeMap.getElem?_insert_self
      · cases h
  | region inner fields ih =>
    rw [bind_region]
    exact ih hnodup h
  | definition name type inner source ih =>
    obtain ⟨hname, hinner⟩ := nodup_of_definition hnodup
    have hne : n.1 ≠ name := by
      rintro rfl
      exact hname (mem_symbols_of_mem_looks (mem_looks_of_rewrites (v := inner) h))
    exact (Tables.agreeOn_register hne _ _ _ _).types.trans (ih hinner h)

namespace Repeats

variable {t u : Tables}

/-- An element is the same if its base is, and is cast again. -/
theorem element {base : Value} (hrepeats : Repeats d t u base) {index : Int} {type : String}
    {fields : List String}
    (h : Known ((element base index type fields).bind d t).2 u (element base index type fields))
    (hnodup : base.symbols.Nodup) : Repeats d t u (element base index type fields) := by
  obtain ⟨-, htypes, hsize⟩ := h.base hnodup
  obtain ⟨htables, hslot, hexpr⟩ := hrepeats
  obtain ⟨hnarrow, hcast⟩ := castBase_again (d := d) (e := (base.bind d t).1.expr) htypes
    (isCast_bind (d := d) (t := u) base)
  have hagain : (Value.element base index type fields).bind d u =
      let e := elementOver (base.bind d u).1 index
        (castBase d u base type (base.bind d u).1.expr) u
      (if fields.isEmpty then e.1
        else ⟨d.takeFields e.1.expr (type.toList.contains '*') (some type) fields, none, none⟩,
        e.2) := by
    rw [bind_element, bindElement_bind, htables, hnarrow]
  have hall : (∀ n ∈ (Value.element base index type fields).rewrites d t, d.isVoid n.2 = true) ↔
      (base.bind d u).1.expr = (base.bind d t).1.expr ∧
        ∀ n ∈ rewrite d (base.bind d t).2 base type, d.isVoid n.2 = true := by
    rw [hexpr, rewrites, List.forall_mem_append]
  refine ⟨?_, ?_, ?_⟩
  · rw [hagain, elementOver, hslot]
    cases hs : (base.bind d t).1.slot with
    | none => rfl
    | some slot => exact hsize slot hs
  · rw [hagain, bind_element, bindElement_bind, elementOver, elementOver, hslot]
    dsimp only
    split <;> rfl
  · rw [hall, ← hcast, hagain, bind_element, bindElement_bind, elementOver, elementOver]
    dsimp only
    split
    · simp
    · rw [d.takeFields_inj]
      simp

theorem region {inner : Value} (hrepeats : Repeats d t u inner) {fields : List String}
    (h : Known ((region inner fields).bind d t).2 u (region inner fields)) :
    Repeats d t u (region inner fields) := by
  obtain ⟨-, htype⟩ := h.inner_of_region
  obtain ⟨htables, hslot, hexpr⟩ := hrepeats
  have hagain := bind_region (d := d) (t := u) inner fields
  have hfirst := bind_region (d := d) (t := t) inner fields
  rw [typeOf?_bind] at hagain hfirst
  refine ⟨by rw [hagain, htables], ?_, ?_⟩
  · rw [hagain, hfirst]
    dsimp only
    split
    · exact hslot
    · rfl
  · rw [hagain, hfirst, rewrites, ← hexpr]
    dsimp only
    split
    · exact Iff.rfl
    · next hfields => rw [htables, htype hfields, d.takeFields_inj]

/-- A definition is the same if what is defined is: its symbol is registered already. -/
theorem definition {inner : Value} (hrepeats : Repeats d t u inner) {name type source : String}
    (h : Known ((definition name type inner source).bind d t).2 u
      (definition name type inner source)) (hname : name ∉ inner.symbols) :
    Repeats d t u (definition name type inner source) := by
  obtain ⟨-, hregistered, hself⟩ := h.inner_of_definition hname
  have hsnd : ((Value.definition name type inner source).bind d u).2 = u := by
    show (inner.bind d u).2.register _ _ _ _ _ = u
    rw [hrepeats.tables]
    exact Tables.register_of_registered hregistered ..
  refine ⟨hsnd, ?_, hrepeats.expr⟩
  show ((Value.definition name type inner source).bind d u).2.slots[name]? = _
  rw [hsnd, hself]
  rfl

end Repeats

/-- **A value is bound a second time to the same, but for the bases that are cast no more.** -/
theorem repeats_bind {v : Value} {t u : Tables} (hnodup : v.symbols.Nodup)
    (h : Known (v.bind d t).2 u v) : Repeats d t u v := by
  induction v generalizing t with
  | atom text => exact ⟨rfl, rfl, by simp [rewrites, bind]⟩
  | reference symbol text =>
    exact ⟨rfl, h.slots symbol (List.mem_singleton_self symbol), by simp [rewrites, bind]⟩
  | element base index type fields ih =>
    have hbase := (h.base hnodup).1
    exact (ih hnodup hbase).element h hnodup
  | region inner fields ih =>
    have hinner := h.inner_of_region.1
    exact (ih hnodup hinner).region h
  | definition name type inner source ih =>
    obtain ⟨hname, hnodup⟩ := nodup_of_definition hnodup
    have hinner := (h.inner_of_definition hname).1
    exact (ih hnodup hinner).definition h hname

end Value

/-! ### Texts -/

namespace Declarations

variable {limit : Nat} {v : Value} {t t' : Tables}

/-- What a value refers to is followed no further when it was followed once. -/
theorem follow_again (hfollow : follow (d.resolve limit t.parameters.keys) v t = (.ok (), t'))
    {u : Tables} (hext : Extends t' u) :
    follow (d.resolve limit u.parameters.keys) v u = (.ok (), u) := by
  unfold follow at hfollow ⊢
  cases hreferent : v.referent? with
  | none => rfl
  | some s =>
    rw [hreferent] at hfollow
    refine d.resolve_of_settled ?_ limit _
    have hbefore : Extends t t' := by
      have := (runs_resolve (d := d) limit t.parameters.keys s t).extends
      rwa [show d.resolve limit t.parameters.keys s t = _ from hfollow] at this
    by_cases hin : s ∈ t.parameters
    · exact .inl (hext.isRegistered
        (isRegistered_of_resolve hfollow (Std.ExtTreeMap.mem_keys.2 hin) hin))
    · -- what is no parameter becomes one only by being registered
      by_cases hlater : s ∈ u.parameters
      · exact .inl (((hbefore.trans hext).new s hlater).resolve_left hin)
      · exact .inr hlater

/-- **A text can be read again**, against the tables that it left behind. If it is about each symbol
once, nothing changes any more, and the expression is the same as before exactly if no type that was
rewritten says what is stored: a base that got such a type is never cast again. -/
theorem bindText_again (d : Declarations) {limit : Nat} {text : String} {t t' : Tables} {b : Bound}
    (h : d.bindText limit text t = (.ok b, t')) :
    ∃ (v : Value) (u : Tables) (b' : Bound) (t'' : Tables),
      Value.parse limit text = .ok v ∧
      follow (d.resolve limit t.parameters.keys) v t = (.ok (), u) ∧ v.bind d u = (b, t') ∧
      d.bindText limit text t' = (.ok b', t'') ∧
      (v.symbols.Nodup →
        t'' = t' ∧ b'.symbol = b.symbol ∧ b'.slot = b.slot ∧
        (b'.expr = b.expr ↔ ∀ n ∈ v.rewrites d u, d.isVoid n.2 = true) ∧
        ∀ n ∈ v.rewrites d u, d.isVoid n.2 = false → t'.isRegistered n.1 = true →
          ∀ (told : String → Prop) (later : Tables), Grows d told t' later →
            ∀ (base : Bound) (index : Int) (type : String), base.symbol = some n.1 →
              (Value.bindElement d base index type later).1.expr = .index base.expr index) := by
  obtain ⟨v, u, hread, hfollow, hbind⟩ : ∃ v u, Value.parse limit text = .ok v ∧
      follow (d.resolve limit t.parameters.keys) v t = (.ok (), u) ∧ v.bind d u = (b, t') := by
    have hspec := d.bindReading_spec (d.resolve limit t.parameters.keys) (Value.parse limit text) t
    rw [← bindText, h] at hspec
    generalize Value.parse limit text = reading at hspec
    cases hspec with
    | wholly hfollow => exact ⟨_, _, rfl, hfollow, rfl⟩
  have hext : Extends u t' := by
    have := Extends.bind (d := d) v u
    rwa [hbind] at this
  refine ⟨v, u, _, _, hread, hfollow, hbind, bindText_of_parse hread (follow_again hfollow hext),
    fun hnodup => ?_⟩
  have hknown : Value.Known (v.bind d u).2 t' v := by
    rw [hbind]
    exact ⟨fun _ _ => rfl, fun _ _ => rfl, fun _ size hsize => ⟨size, hsize, Nat.le_refl _⟩⟩
  obtain ⟨htables, hslot, hexpr⟩ := Value.repeats_bind hnodup hknown
  rw [hbind] at hslot hexpr
  have hsymbol : (v.bind d t').1.symbol = b.symbol := by
    have hfirst := Value.symbol_bind (d := d) (t := u) v
    rw [hbind] at hfirst
    rw [hfirst, Value.symbol_bind]
  refine ⟨htables, hsymbol, hslot, hexpr, fun n hn hnot hregistered told later hgrows base index
    type hbase => ?_⟩
  -- the type that the symbol was given says what is stored, so it stays
  have htype : later.types[n.1]? = some n.2 := by
    have hgiven := Value.types_of_mem_rewrites hnodup hn
    rw [hbind] at hgiven
    refine (hgrows.types n.1 n.2 hregistered hgiven).resolve_right fun hvoid => ?_
    rw [← isVoid, hnot] at hvoid
    cases hvoid.1
  have htyped : (d.typeOf? later base).any d.isVoid = false := by
    rw [typeOf?, hbase, Option.bind_some, htype, Option.some_or, Option.any_some, hnot]
  rw [Value.bindElement_of_typed d htyped]
  rfl

/-- An element of a typed buffer. -/
def typedAccess : String := "Element\x7breg_$0<int *,p>,2,int\x7d"

/-- An element of a void buffer. -/
def voidAccess : String := "Element\x7breg_$0<void *,p>,2,int\x7d"

/-- Nothing changes when an element of a typed buffer is read again. -/
theorem bindText_again_typedAccess :
    ∃ (b b' : Bound) (t : Tables),
      ({} : Declarations).bindText Value.defaultLimit typedAccess {} = (.ok b, t) ∧
      ({} : Declarations).bindText Value.defaultLimit typedAccess t = (.ok b', t) ∧
      b'.expr = b.expr := by
  let v : Value := .element (.definition "reg_$0" "int *" (.atom "p") "p") 2 "int" []
  have hparse : Value.parse Value.defaultLimit typedAccess = .ok v := by decide +kernel
  have hfirst := @bindText_of_parse {} _ _ v {} {} hparse rfl
  obtain ⟨v', u, b', t'', hread, hfollow, -, hagain, hsame⟩ :=
    ({} : Declarations).bindText_again hfirst
  cases hparse.symm.trans hread
  cases hfollow
  obtain ⟨rfl, -, -, hexpr, -⟩ := hsame (by decide)
  exact ⟨_, b', _, hfirst, hagain, hexpr.2 (by decide +kernel)⟩

/-- An element of a void buffer is not cast when it is read again. -/
theorem not_again_voidAccess :
    let first := ({} : Declarations).bindText Value.defaultLimit voidAccess {}
    let second := ({} : Declarations).bindText Value.defaultLimit voidAccess first.2
    first.1 = .ok ⟨.index (.cast "int *" (.ident "p")) 2, none, some ⟨"reg_$0", 1⟩⟩ ∧
      second.1 = .ok ⟨.index (.ident "p") 2, none, some ⟨"reg_$0", 1⟩⟩ := by
  decide +kernel

end Declarations

end TestSynth
