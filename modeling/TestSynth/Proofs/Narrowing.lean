import TestSynth.Proofs.Settled

/-!
# Narrowed types

When an element of a void buffer is taken, the symbol of the buffer gets the type that this tells of
it.  Up to these types, and to sizes, the tables of a case are settled tables, and a value is bound
to what it denotes there, as long as it looks at no type that was narrowed before.

* `Tables.Shadows` : tables that differ from settled ones in narrowed types and in sizes.
* `Tables.Shadows.bind` : a value is bound to what it denotes.
-/

namespace TestSynth.Tables

/-- `t` is `g`, but for sizes and for some types, `N`, that were narrowed. -/
structure Shadows (d : Declarations) (t₀ g t : Tables) (N : String × String → Prop) : Prop where
  exprs : t.exprs = g.exprs
  slots : t.slots = g.slots
  values : t.values = g.values
  narrowed : ∀ n, N n → t.types[n.1]? = some n.2
  declared : ∀ s, (∀ n, N n → n.1 ≠ s) → t.types[s]? = g.types[s]?
  void : ∀ n, N n → n.1 ∈ t₀.voids d
  known : ∀ n, N n → g.isRegistered n.1 = true ∨ t₀.Foreign n.1

/-- The types that a value looks at were not narrowed, and it does not look at a void one twice. -/
structure Unseen (d : Declarations) (t₀ : Tables) (N : String × String → Prop) (v : Value) :
    Prop where
  looks : ∀ s ∈ v.looks, ∀ n, N n → n.1 ≠ s
  once : ∀ s ∈ t₀.voids d, v.looks.count s ≤ 1

variable {d : Declarations} {t₀ g t : Tables} {N : String × String → Prop} {v : Value}

namespace Shadows

theorem isRegistered_eq (h : Shadows d t₀ g t N) (s : String) :
    t.isRegistered s = g.isRegistered s := by
  rw [isRegistered, h.slots, isRegistered]

theorem congr (h : Shadows d t₀ g t N) {N' : String × String → Prop} (hN : ∀ n, N' n ↔ N n) :
    Shadows d t₀ g t N' := by
  obtain rfl : N' = N := funext fun n => propext (hN n)
  exact h

theorem recordSize (h : Shadows d t₀ g t N) (slot : Slot) (size : Nat) :
    Shadows d t₀ g (t.recordSize slot size) N :=
  { h with }

theorem narrow (h : Shadows d t₀ g t N) {s type : String} (hnew : ∀ n, N n → n.1 ≠ s)
    (hvoid : s ∈ t₀.voids d) (hknown : g.isRegistered s = true ∨ t₀.Foreign s) :
    Shadows d t₀ g { t with types := t.types.insert s type } fun n => N n ∨ n = (s, type) := by
  refine { h with narrowed := ?_, declared := ?_, void := ?_, known := ?_ }
  · rintro n (hn | rfl)
    · rw [Std.ExtTreeMap.getElem?_insert, if_neg, h.narrowed n hn]
      rw [Std.compare_eq_iff_eq]
      exact (hnew n hn).symm
    · exact Std.ExtTreeMap.getElem?_insert_self
  · intro s' hs'
    rw [Std.ExtTreeMap.getElem?_insert, if_neg, h.declared s' fun n hn => hs' n (.inl hn)]
    rw [Std.compare_eq_iff_eq]
    exact hs' (s, type) (.inr rfl)
  · rintro n (hn | rfl)
    · exact h.void n hn
    · exact hvoid
  · rintro n (hn | rfl)
    · exact h.known n hn
    · exact hknown

theorem ne_of_fresh (h : Shadows d t₀ g t N) {name : String} (hfresh : g.isRegistered name = false)
    (hname : ¬t₀.Foreign name) (n : String × String) (hn : N n) : n.1 ≠ name := by
  rintro rfl
  rcases h.known n hn with hreg | hforeign
  · rw [hfresh] at hreg
    cases hreg
  · exact hname hforeign

theorem register (h : Shadows d t₀ g t N) {name : String} (hname : ¬t₀.Foreign name) (text : String)
    (e : Expr) (type? : Option String) (slot : Slot) :
    Shadows d t₀ (g.register name text e type? slot) (t.register name text e type? slot) N := by
  cases hfresh : g.isRegistered name with
  | true =>
    rwa [register_of_registered hfresh, register_of_registered (by rwa [h.isRegistered_eq])]
  | false =>
    have hg : Adds g (g.register name text e type? slot) name e type? slot := .register hfresh text
    have ht : Adds t (t.register name text e type? slot) name e type? slot :=
      .register ((h.isRegistered_eq name).trans hfresh) text
    constructor
    case exprs => exact Std.ExtTreeMap.ext_getElem? fun s => by rw [ht.exprs, hg.exprs, h.exprs]
    case slots => exact Std.ExtTreeMap.ext_getElem? fun s => by rw [ht.slots, hg.slots, h.slots]
    case values => rw [ht.values, hg.values, h.values]
    case narrowed =>
      intro n hn
      rw [(ht.agreeOn (h.ne_of_fresh hfresh hname n hn)).types, h.narrowed n hn]
    case declared =>
      intro s hs
      rw [ht.types, hg.types, h.declared s hs]
    case void => exact h.void
    case known => exact fun n hn => (h.known n hn).imp_left (hg.keeps.registered n.1)

theorem typeOf?_eq (h : Shadows d t₀ g t N) {b : Bound}
    (hb : ∀ s, b.symbol = some s → ∀ n, N n → n.1 ≠ s) : d.typeOf? t b = d.typeOf? g b := by
  rw [Declarations.typeOf?, Declarations.typeOf?]
  cases hs : b.symbol with
  | none => rfl
  | some s => rw [Option.bind_some, Option.bind_some, h.declared s (hb s hs)]

end Shadows

/-! ### Values -/

/-- A value is bound to what it denotes, and narrows what it tells of. -/
structure Shadowing (d : Declarations) (t₀ g t : Tables) (N : String × String → Prop) (v : Value) :
    Prop where
  denotes : (v.bind d t).1 = v.denote d (v.settle d g)
  shadows : Shadows d t₀ (v.settle d g) (v.bind d t).2
    fun n => N n ∨ n ∈ v.narrowings d (v.settle d g)
  accesses : v.accesses d t = v.touched d (v.settle d g)

namespace Unseen

variable {base : Value} {rest : List String}

theorem of_append (h : Unseen d t₀ N v) (hlooks : v.looks = base.looks ++ rest) :
    Unseen d t₀ N base where
  looks s hs := h.looks s (by rw [hlooks]; exact List.mem_append_left _ hs)
  once s hs := by
    have hcount := h.once s hs
    rw [hlooks, List.count_append] at hcount
    omega

/-- The type that is looked at last was not narrowed on the way. -/
theorem ne (h : Unseen d t₀ N v) {s : String} (hlooks : v.looks = base.looks ++ [s])
    (hbase : Shadows d t₀ g t fun n => N n ∨ n ∈ base.narrowings d g) (n : String × String)
    (hn : N n ∨ n ∈ base.narrowings d g) : n.1 ≠ s := by
  rcases hn with hn | hn
  · exact h.looks s (by rw [hlooks]; exact List.mem_append_right _ (List.mem_singleton_self s)) n hn
  · rintro rfl
    have hcount := h.once n.1 (hbase.void n (.inr hn))
    have hpos := List.count_pos_iff.2 (Value.mem_looks_of_narrowings hn)
    rw [hlooks, List.count_append, List.count_singleton_self] at hcount
    omega

end Unseen

namespace Shadowing

section Element

variable {base : Value} {index : Int} {type : String} {fields : List String}
  (hsettling : Settling d t₀ g base) (hdefinitions : ∀ x ∈ base.definitions, x ∈ t₀.definitions)
  (hglobal : base.referent?.isSome = true → (d.variableType? base.leaf).any d.isVoid = false)
  (hunseen : Unseen d t₀ N (.element base index type fields))

include hsettling hdefinitions hglobal hunseen

theorem exists_narrowed (h : Shadowing d t₀ g t N base) :
    ∃ u, Shadows d t₀ (base.settle d g) u
        (fun n => N n ∨ n ∈ (Value.element base index type fields).narrowings d (base.settle d g)) ∧
      Value.bindElement d (base.bind d t).1 index type (base.bind d t).2 =
        Value.elementOver (base.bind d t).1 index
          (if (d.typeOf? (base.settle d g) (base.denote d (base.settle d g))).any d.isVoid then
            .cast (type ++ " *") (base.bind d t).1.expr
          else (base.bind d t).1.expr) u := by
  obtain ⟨hdenotes, hshadows, -⟩ := h
  have hne {s : String} (hs : base.symbol? = some s) :=
    hunseen.ne (by rw [Value.looks, hs]; rfl) hshadows
  have htype : d.typeOf? (base.bind d t).2 (base.bind d t).1 =
      d.typeOf? (base.settle d g) (base.denote d (base.settle d g)) := by
    rw [← hdenotes]
    refine hshadows.typeOf?_eq fun s hs => hne ?_
    rwa [hdenotes, Value.symbol_denote] at hs
  cases hvoid : (d.typeOf? (base.settle d g) (base.denote d (base.settle d g))).any d.isVoid with
  | false =>
    refine ⟨(base.bind d t).2, hshadows.congr fun n => ?_, ?_⟩
    · rw [Value.narrowings, hvoid]
      simp
    · rw [Value.bindElement_of_typed d (by rw [htype]; exact hvoid)]
      rfl
  | true =>
    rw [Value.bindElement_of_void d (by rw [htype]; exact hvoid)]
    refine ⟨_, ?_, rfl⟩
    rw [hdenotes, Value.symbol_denote]
    cases hsymbol : base.symbol? with
    | none =>
      refine hshadows.congr fun n => ?_
      rw [Value.narrowings, hvoid, hsymbol]
      simp
    | some s =>
      -- the symbol was declared void, and nothing has narrowed it so far
      have hmem := hsettling.settled.mem_voids hdefinitions hsettling.ready hglobal hsymbol hvoid
      have hknown := hsettling.ready s (Value.mem_symbols_of_symbol? hsymbol)
      refine (hshadows.narrow (hne hsymbol) hmem hknown).congr fun n => ?_
      rw [Value.narrowings, hvoid, hsymbol]
      simp [or_assoc]

/-- An element is bound to what it denotes if its base is. -/
theorem element (h : Shadowing d t₀ g t N base) :
    Shadowing d t₀ g t N (.element base index type fields) := by
  obtain ⟨u, hshadows, helement⟩ := h.exists_narrowed hsettling hdefinitions hglobal hunseen
  obtain ⟨hdenotes, -, haccesses⟩ := h
  have hbind : (Value.element base index type fields).bind d t =
      let e := Value.bindElement d (base.bind d t).1 index type (base.bind d t).2
      if fields.isEmpty then e
      else (⟨d.takeFields e.1.expr (type.toList.contains '*') (some type) fields, none, none⟩,
        e.2) := rfl
  have hsnd : ((Value.element base index type fields).bind d t).2 =
      (base.bind d t).1.slot.elim u fun slot => u.recordSize slot (sizeForIndex index) := by
    rw [hbind, helement]
    simp only [Value.elementOver]
    split <;> rfl
  refine ⟨?_, ?_, ?_⟩
  · rw [hbind, helement, hdenotes]
    simp only [Value.elementOver, Value.denote, Value.settle]
    split <;> rfl
  · rw [hsnd]
    cases (base.bind d t).1.slot with
    | none => exact hshadows
    | some slot => exact hshadows.recordSize slot _
  · have hrest : (Value.element base index type fields).accesses d t = base.accesses d t ++
        ((base.bind d t).1.slot.map fun slot => Access.mk slot index).toList := rfl
    rw [hrest, haccesses, hdenotes]
    rfl

end Element

theorem region {inner : Value} {fields : List String}
    (hunseen : Unseen d t₀ N (.region inner fields)) (h : Shadowing d t₀ g t N inner) :
    Shadowing d t₀ g t N (.region inner fields) := by
  obtain ⟨hdenotes, hshadows, haccesses⟩ := h
  have hsnd : ((Value.region inner fields).bind d t).2 = (inner.bind d t).2 := by
    simp only [Value.bind]
    split <;> rfl
  refine ⟨?_, by rw [hsnd]; exact hshadows, haccesses⟩
  simp only [Value.bind, Value.denote, Value.settle]
  split
  · exact hdenotes
  · next hfields =>
    have htype : d.typeOf? (inner.bind d t).2 (inner.bind d t).1 =
        d.typeOf? (inner.settle d g) (inner.bind d t).1 := by
      refine hshadows.typeOf?_eq fun s hs => hunseen.ne ?_ hshadows
      rw [hdenotes, Value.symbol_denote] at hs
      rw [Value.looks, if_neg hfields, hs]
      rfl
    rw [htype, hdenotes]

theorem definition {name type source : String} {inner : Value} (hname : ¬t₀.Foreign name)
    (hinner : Settling d t₀ g inner)
    (hsettling : Settling d t₀ g (.definition name type inner source))
    (h : Shadowing d t₀ g t N inner) :
    Shadowing d t₀ g t N (.definition name type inner source) := by
  obtain ⟨hdenotes, hshadows, haccesses⟩ := h
  have hstep := Keeps.register (inner.settle d g) name source
    (inner.denote d (inner.settle d g)).expr (some (d.resolveType type))
    ((inner.denote d (inner.settle d g)).slot.getD (.ofRoot name))
  -- what is inside does not see the new symbol
  have hagree := hinner.settled.agree hsettling.settled hstep hinner.ready
  have hregister := hshadows.register hname source (inner.denote d (inner.settle d g)).expr
    (some (d.resolveType type)) ((inner.denote d (inner.settle d g)).slot.getD (.ofRoot name))
  have hsnd : ((Value.definition name type inner source).bind d t).2 =
      (inner.bind d t).2.register name source (inner.bind d t).1.expr (some (d.resolveType type))
        ((inner.bind d t).1.slot.getD (.ofRoot name)) := rfl
  have hfst : ((Value.definition name type inner source).bind d t).1 = ⟨(inner.bind d t).1.expr,
      some name, ((Value.definition name type inner source).bind d t).2.slots[name]?⟩ := rfl
  rw [hdenotes] at hsnd hfst
  refine ⟨?_, ?_, ?_⟩
  · rw [hfst, hsnd, hregister.slots, Value.denote, Value.denote_congr (v := inner) hagree]
    rfl
  · rw [hsnd]
    refine hregister.congr fun n => ?_
    rw [Value.narrowings, Value.narrowings_congr (v := inner) hagree]
  · rw [Value.touched, Value.touched_congr (v := inner) hagree, ← haccesses]
    rfl

end Shadowing

/-- **A value is bound to what it denotes** in settled tables. -/
theorem Shadows.bind (hfree : OrderFree d t₀) (hsettled : Settled d t₀ g)
    (h : Shadows d t₀ g t N) (hdefinitions : ∀ x ∈ v.definitions, x ∈ t₀.definitions)
    (hreferent : ∀ s ∈ v.referent?, g.isRegistered s = true ∨ t₀.Foreign s)
    (hglobal : v.referent?.isSome = true → (d.variableType? v.leaf).any d.isVoid = false)
    (hunseen : Unseen d t₀ N v) : Shadowing d t₀ g t N v := by
  have hsettling := hsettled.settle hfree hdefinitions hreferent
  induction v with
  | atom text => exact ⟨rfl, h.congr fun n => by simp [Value.narrowings], rfl⟩
  | reference symbol text =>
    refine ⟨?_, h.congr fun n => by simp [Value.narrowings], rfl⟩
    rw [Value.bind, h.slots]
    rfl
  | element base index type fields ih =>
    have hbase : Settling d t₀ g base := hsettled.settle hfree hdefinitions hreferent
    exact (ih hdefinitions hreferent hglobal (hunseen.of_append rfl) hbase).element hbase
      hdefinitions hglobal hunseen
  | region inner fields ih =>
    have hinner : Settling d t₀ g inner := hsettled.settle hfree hdefinitions hreferent
    exact (ih hdefinitions hreferent hglobal (hunseen.of_append rfl) hinner).region hunseen
  | definition name type inner source ih =>
    have hinside : ∀ x ∈ inner.definitions, x ∈ t₀.definitions :=
      fun x hx => hdefinitions x (List.mem_cons_of_mem _ hx)
    have hname : ¬t₀.Foreign name := fun hforeign =>
      hforeign.2 _ (hdefinitions ⟨name, type, inner⟩ List.mem_cons_self) rfl
    have hinner := hsettled.settle hfree hinside hreferent
    exact (ih hinside hreferent hglobal ⟨hunseen.looks, hunseen.once⟩ hinner).definition hname
      hinner hsettling

end TestSynth.Tables
