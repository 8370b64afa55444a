import TestSynth.Proofs.Denotation
import TestSynth.Proofs.Resolution

/-!
# Settled tables

What is left behind by one parameter is found by the next.  If no value depends on what it happens
to find, `OrderFree`, the tables satisfy one set of equations all the time, `Tables.Settled`: each
symbol that is registered is registered with what its value denotes.  Here the types are those that
were declared, whatever was learned of void buffers.

* `OrderFree` : no value depends on those that were bound before it.
* `Tables.Settled.adds` : a registration keeps the equations.
* `Tables.Settled.settle` : so does a value that registers the symbols that it defines.
-/

namespace TestSynth

namespace Tables

/-- The parameters whose values can be read. -/
def readable (t : Tables) : List (String × Value) :=
  t.parameters.toList.filterMap fun entry =>
    (Value.parse Value.defaultLimit entry.2).toOption.map (entry.1, ·)

/-- The definitions inside the values of parameters. -/
def definitions (t : Tables) : List Definition := t.readable.flatMap fun p => p.2.definitions

theorem mem_readable {t : Tables} {p : String × Value} :
    p ∈ t.readable ↔
      ∃ text, t.parameters[p.1]? = some text ∧ Value.parse Value.defaultLimit text = .ok p.2 := by
  obtain ⟨name, v⟩ := p
  have hparse (text : String) (entry : String) :
      (Value.parse Value.defaultLimit text).toOption.map (entry, ·) = some (name, v) ↔
        entry = name ∧ Value.parse Value.defaultLimit text = .ok v := by
    cases Value.parse Value.defaultLimit text with
    | error e => simp [Except.toOption]
    | ok v' => simp [Except.toOption]
  simp only [readable, List.mem_filterMap, Prod.exists, hparse,
    Std.ExtTreeMap.mem_toList_iff_getElem?_eq_some]
  constructor
  · rintro ⟨_, text, htext, rfl, hv⟩
    exact ⟨text, htext, hv⟩
  · rintro ⟨text, htext, hv⟩
    exact ⟨name, text, htext, rfl, hv⟩

theorem definitions_subset {t : Tables} {p : String × Value} (hp : p ∈ t.readable) :
    ∀ x ∈ p.2.definitions, x ∈ t.definitions :=
  fun _ hx => List.mem_flatMap.2 ⟨p, hp, hx⟩

theorem readable_unique {t : Tables} {p q : String × Value} (hp : p ∈ t.readable)
    (hq : q ∈ t.readable) (h : p.1 = q.1) : p = q := by
  obtain ⟨text, htext, hv⟩ := mem_readable.1 hp
  obtain ⟨text', htext', hv'⟩ := mem_readable.1 hq
  rw [h, htext'] at htext
  cases htext
  rw [hv'] at hv
  exact Prod.ext h (Except.ok.inj hv).symm

theorem mem_parameters_of_readable {t : Tables} {p : String × Value} (hp : p ∈ t.readable) :
    p.1 ∈ t.parameters := by
  obtain ⟨text, htext, -⟩ := mem_readable.1 hp
  exact Table.mem_of_getElem? htext

end Tables

/-- The symbols that are declared with a void type. -/
def Tables.voids (d : Declarations) (t : Tables) : List String :=
  (t.types.toList.filter fun entry => d.isVoid entry.2).map (·.1) ++
    (t.definitions.filter fun x => d.isVoid (d.resolveType x.type)).map (·.name)

theorem Tables.mem_voids {d : Declarations} {t : Tables} {s : String} :
    s ∈ t.voids d ↔ (∃ type, t.types[s]? = some type ∧ d.isVoid type = true) ∨
      ∃ x ∈ t.definitions, x.name = s ∧ d.isVoid (d.resolveType x.type) = true := by
  simp only [voids, List.mem_append, List.mem_map, List.mem_filter, Prod.exists,
    Std.ExtTreeMap.mem_toList_iff_getElem?_eq_some]
  refine or_congr ⟨?_, ?_⟩ ⟨?_, ?_⟩
  · rintro ⟨s, type, ⟨htype, hvoid⟩, rfl⟩
    exact ⟨type, htype, hvoid⟩
  · rintro ⟨type, htype, hvoid⟩
    exact ⟨s, type, ⟨htype, hvoid⟩, rfl⟩
  · rintro ⟨x, ⟨hx, hvoid⟩, hname⟩
    exact ⟨x, hx, hname, hvoid⟩
  · rintro ⟨x, hx, hname, hvoid⟩
    exact ⟨x, ⟨hx, hvoid⟩, hname⟩

/-- No value of a case depends on which others were bound before it. -/
structure OrderFree (d : Declarations) (t : Tables) : Prop where
  /-- A symbol is not defined in two ways. -/
  consistent : ∀ x ∈ t.definitions, ∀ y ∈ t.definitions, x.name = y.name → x = y
  /-- No parameter is defined inside a value. -/
  apart : ∀ x ∈ t.definitions, x.name ∉ t.parameters
  /-- No value refers to a symbol that is defined inside another. -/
  closed : ∀ p ∈ t.readable, ∀ symbol ∈ p.2.referent?, ∀ x ∈ t.definitions, x.name ≠ symbol
  /-- References do not go in circles. -/
  acyclic : ∃ rank : String → Nat, ∀ p ∈ t.readable, ∀ symbol ∈ p.2.referent?,
    symbol ∈ t.parameters → rank symbol < rank p.1
  /-- The elements of a void buffer are looked at in one place only. -/
  voidOnce : ∀ s ∈ t.voids d, ∀ p ∈ t.readable, p.2.looks.count s ≤ 1 ∧
    ∀ q ∈ t.readable, s ∈ p.2.looks → s ∈ q.2.looks → p = q
  /-- No parameter takes a void type from the symbol whose value it has. -/
  voidTaken : ∀ s ∈ t.voids d, ∀ p ∈ t.readable, p.2.symbol? = some s → p.1 ∈ t.types
  /-- No symbol is written as a void global variable. -/
  voidGlobal : ∀ p ∈ t.readable, p.2.referent?.isSome = true →
    (d.variableType? p.2.leaf).any d.isVoid = false

namespace Tables

variable (d : Declarations) (t₀ t : Tables)

/-- A symbol that is neither a parameter nor defined anywhere. -/
def Foreign (s : String) : Prop := s ∉ t₀.parameters ∧ ∀ x ∈ t₀.definitions, x.name ≠ s

/-- The slots and types of all symbols of a value are as they will be. -/
def Ready (v : Value) : Prop := ∀ s ∈ v.symbols, t.isRegistered s = true ∨ t₀.Foreign s

/-- A symbol is registered with what a value denotes. -/
structure Holds (name : String) (v : Value) : Prop where
  ready : Ready t₀ t v
  expr : t.exprs[name]? = some (v.denote d t).expr
  slot : t.slots[name]? = some ((v.denote d t).slot.getD (.ofRoot name))

/-- What the tables say when some of the parameters of `t₀` were resolved. -/
structure Settled : Prop where
  /-- A parameter has its own type or that of the symbol whose value it has. -/
  parameter : ∀ p ∈ t₀.readable, t.isRegistered p.1 = true → Holds d t₀ t p.1 p.2 ∧
    t.types[p.1]? = t₀.types[p.1]?.or ((p.2.denote d t).symbol.bind fun s => t.types[s]?)
  /-- A defined symbol has the type of its definition. -/
  definition : ∀ x ∈ t₀.definitions, t.isRegistered x.name = true → Holds d t₀ t x.name x.inner ∧
    t.types[x.name]? = some (d.resolveType x.type)
  registered : ∀ s, t.isRegistered s = true → (∃ p ∈ t₀.readable, p.1 = s) ∨
    ∃ x ∈ t₀.definitions, x.name = s
  unregistered : ∀ s, t.isRegistered s = false → t.exprs[s]? = none ∧ t.types[s]? = t₀.types[s]?
  /-- What is void was declared so. -/
  typed : ∀ s type : String, t.types[s]? = some type → d.isVoid type = true → s ∈ t₀.voids d
  values : t.values = t₀.values

/-- What is known in `t` of registered symbols is still known in `t'`. -/
structure Keeps (t t' : Tables) : Prop where
  registered : ∀ s, t.isRegistered s = true → t'.isRegistered s = true
  slots : ∀ s, t.isRegistered s = true → t'.slots[s]? = t.slots[s]?
  types : ∀ s, t.isRegistered s = true → t'.types[s]? = t.types[s]?

variable {d} {t₀ t} {t' : Tables} {name text : String} {v : Value} {type? : Option String}

/-! ### Registration -/

/-- `t'` is `t` with one more symbol registered. -/
structure Adds (t t' : Tables) (name : String) (e : Expr) (type? : Option String) (slot : Slot) :
    Prop where
  fresh : t.isRegistered name = false
  exprs (s : String) : t'.exprs[s]? = if name = s then some e else t.exprs[s]?
  slots (s : String) : t'.slots[s]? = if name = s then some slot else t.slots[s]?
  types (s : String) : t'.types[s]? = if name = s then type?.or t.types[s]? else t.types[s]?
  registered (s : String) : t'.isRegistered s = true ↔ s = name ∨ t.isRegistered s = true
  values : t'.values = t.values

theorem Adds.register {e : Expr} {slot : Slot} (hfresh : t.isRegistered name = false)
    (text : String) : Adds t (t.register name text e type? slot) name e type? slot := by
  rw [register_of_fresh hfresh]
  refine ⟨hfresh, fun s => ?_, fun s => ?_, fun s => ?_, fun s => ?_, rfl⟩
  · simp only [Std.ExtTreeMap.getElem?_insert, Std.compare_eq_iff_eq]
  · simp only [Std.ExtTreeMap.getElem?_insert, Std.compare_eq_iff_eq]
  · cases type? with
    | none => simp
    | some type =>
      simp only [Option.elim_some, Std.ExtTreeMap.getElem?_insert, Std.compare_eq_iff_eq,
        Option.some_or]
  · rw [isRegistered_iff, isRegistered_iff, Std.ExtTreeMap.mem_insert, Std.compare_eq_iff_eq,
      eq_comm]

theorem Ready.ne (h : Ready t₀ t v) (hfresh : t.isRegistered name = false)
    (hname : ¬t₀.Foreign name) {s : String} (hs : s ∈ v.symbols) : s ≠ name := by
  rintro rfl
  rcases h s hs with hreg | hforeign
  · rw [hfresh] at hreg
    cases hreg
  · exact hname hforeign

theorem Ready.mono (h : Ready t₀ t v)
    (hreg : ∀ s, t.isRegistered s = true → t'.isRegistered s = true) : Ready t₀ t' v :=
  fun s hs => (h s hs).imp_left (hreg s)

theorem Keeps.refl (t : Tables) : Keeps t t := ⟨fun _ h => h, fun _ _ => rfl, fun _ _ => rfl⟩

theorem Keeps.trans {t'' : Tables} (h : Keeps t t') (h' : Keeps t' t'') : Keeps t t'' where
  registered s hs := h'.registered s (h.registered s hs)
  slots s hs := by rw [h'.slots s (h.registered s hs), h.slots s hs]
  types s hs := by rw [h'.types s (h.registered s hs), h.types s hs]

namespace Adds

variable {e : Expr} {slot : Slot}

theorem agreeOn (h : Adds t t' name e type? slot) {s : String} (hs : s ≠ name) : AgreeOn t t' s :=
  ⟨by rw [h.slots, if_neg hs.symm], by rw [h.types, if_neg hs.symm]⟩

theorem keeps (h : Adds t t' name e type? slot) : Keeps t t' := by
  have hne {s : String} (hs : t.isRegistered s = true) : s ≠ name := by
    rintro rfl
    rw [h.fresh] at hs
    cases hs
  exact ⟨fun s hs => (h.registered s).2 (.inr hs), fun s hs => (h.agreeOn (hne hs)).slots,
    fun s hs => (h.agreeOn (hne hs)).types⟩

theorem agreeOn_ready (h : Adds t t' name e type? slot) (hname : ¬t₀.Foreign name)
    (hv : Ready t₀ t v) (s : String) (hs : s ∈ v.symbols) : AgreeOn t t' s :=
  h.agreeOn (hv.ne h.fresh hname hs)

theorem symbolType (h : Adds t t' name e type? slot) (hname : ¬t₀.Foreign name)
    (hv : Ready t₀ t v) :
    ((v.denote d t').symbol.bind fun s => t'.types[s]?) =
      (v.denote d t).symbol.bind fun s => t.types[s]? := by
  rw [Value.denote_congr (h.agreeOn_ready hname hv)]
  cases hs : (v.denote d t).symbol with
  | none => rfl
  | some s => exact (h.agreeOn_ready hname hv s (Value.mem_symbols_of_denote hs)).types

theorem holds_self (h : Adds t t' name (v.denote d t).expr type?
      ((v.denote d t).slot.getD (.ofRoot name))) (hname : ¬t₀.Foreign name) (hv : Ready t₀ t v) :
    Holds d t₀ t' name v where
  ready := hv.mono h.keeps.registered
  expr := by rw [h.exprs, if_pos rfl, Value.denote_congr (h.agreeOn_ready hname hv)]
  slot := by rw [h.slots, if_pos rfl, Value.denote_congr (h.agreeOn_ready hname hv)]

theorem holds (h : Adds t t' name e type? slot) (hname : ¬t₀.Foreign name) {other : String}
    (hne : other ≠ name) (hother : Holds d t₀ t other v) : Holds d t₀ t' other v where
  ready := hother.ready.mono h.keeps.registered
  expr := by
    rw [h.exprs, if_neg hne.symm, hother.expr,
      Value.denote_congr (h.agreeOn_ready hname hother.ready)]
  slot := by
    rw [h.slots, if_neg hne.symm, hother.slot,
      Value.denote_congr (h.agreeOn_ready hname hother.ready)]

end Adds

theorem getElem?_slots_of_unregistered {s : String} (hs : t.isRegistered s = false) :
    t.slots[s]? = none :=
  Std.ExtTreeMap.getElem?_eq_none fun hmem => by
    rw [← isRegistered_iff, hs] at hmem
    cases hmem

namespace Settled

theorem not_foreign (h : Settled d t₀ t) {s : String} (hs : t.isRegistered s = true) :
    ¬t₀.Foreign s := by
  rintro ⟨hparameter, hdefinition⟩
  rcases h.registered s hs with ⟨p, hp, rfl⟩ | ⟨x, hx, rfl⟩
  · exact hparameter (mem_parameters_of_readable hp)
  · exact hdefinition x hx rfl

theorem isRegistered_of_foreign (h : Settled d t₀ t) {s : String} (hs : t₀.Foreign s) :
    t.isRegistered s = false := by
  by_contra hreg
  exact h.not_foreign (by simpa using hreg) hs

/-- The equations are kept if a fresh symbol is registered with what its value denotes. -/
theorem adds (h : Settled d t₀ t)
    (hadds : Adds t t' name (v.denote d t).expr type? ((v.denote d t).slot.getD (.ofRoot name)))
    (hname : (∃ p ∈ t₀.readable, p.1 = name) ∨ ∃ x ∈ t₀.definitions, x.name = name)
    (hready : Ready t₀ t v) (htype : ∀ type ∈ type?, d.isVoid type = true → name ∈ t₀.voids d)
    (hparameter : ∀ p ∈ t₀.readable, p.1 = name → p.2 = v ∧
      type?.or t.types[name]? =
        t₀.types[name]?.or ((v.denote d t).symbol.bind fun s => t.types[s]?))
    (hdefinition : ∀ x ∈ t₀.definitions, x.name = name →
      x.inner = v ∧ type? = some (d.resolveType x.type)) :
    Settled d t₀ t' := by
  have hforeign : ¬t₀.Foreign name := by
    rintro ⟨hnotParameter, hnotDefined⟩
    rcases hname with ⟨p, hp, rfl⟩ | ⟨x, hx, rfl⟩
    · exact hnotParameter (mem_parameters_of_readable hp)
    · exact hnotDefined x hx rfl
  have hself : Holds d t₀ t' name v := hadds.holds_self hforeign hready
  have hold {s : String} (hs : t'.isRegistered s = true) (hne : s ≠ name) :
      t.isRegistered s = true :=
    ((hadds.registered s).1 hs).resolve_left hne
  -- the new symbol fits its equation as it is registered, and no other one sees it
  constructor
  case parameter =>
    intro p hp hreg
    by_cases hpname : p.1 = name
    · obtain ⟨rfl, htype'⟩ := hparameter p hp hpname
      rw [hpname]
      exact ⟨hself, by rw [hadds.symbolType hforeign hready, hadds.types, if_pos rfl, htype']⟩
    · obtain ⟨hp', htype'⟩ := h.parameter p hp (hold hreg hpname)
      refine ⟨hadds.holds hforeign hpname hp', ?_⟩
      rw [hadds.symbolType hforeign hp'.ready, (hadds.agreeOn hpname).types, htype']
  case definition =>
    intro x hx hreg
    by_cases hxname : x.name = name
    · obtain ⟨hinner, htype'⟩ := hdefinition x hx hxname
      rw [hxname, hinner]
      exact ⟨hself, by rw [hadds.types, if_pos rfl, htype', Option.some_or]⟩
    · obtain ⟨hx', htype'⟩ := h.definition x hx (hold hreg hxname)
      exact ⟨hadds.holds hforeign hxname hx', by rw [(hadds.agreeOn hxname).types, htype']⟩
  case registered =>
    intro s hs
    rcases (hadds.registered s).1 hs with rfl | hs
    · exact hname
    · exact h.registered s hs
  case unregistered =>
    intro s hs
    have hnot : ¬(s = name ∨ t.isRegistered s = true) := by
      rw [← hadds.registered s, hs]
      decide
    rw [not_or] at hnot
    rw [hadds.exprs, if_neg (Ne.symm hnot.1), (hadds.agreeOn hnot.1).types]
    exact h.unregistered s (by simpa using hnot.2)
  case typed =>
    intro s type hs hvoid
    rw [hadds.types] at hs
    split at hs
    · next heq =>
      subst heq
      rcases Option.or_eq_some_iff.1 hs with hs | ⟨-, hs⟩
      · exact htype type hs hvoid
      · exact h.typed name type hs hvoid
    · exact h.typed s type hs hvoid
  case values => exact hadds.values.trans h.values

theorem agreeOn_foreign (h : Settled d t₀ t) (h' : Settled d t₀ t') {s : String}
    (hs : t₀.Foreign s) : AgreeOn t t' s := by
  have hnot := h.isRegistered_of_foreign hs
  have hnot' := h'.isRegistered_of_foreign hs
  exact ⟨by rw [getElem?_slots_of_unregistered hnot, getElem?_slots_of_unregistered hnot'],
    by rw [(h.unregistered s hnot).2, (h'.unregistered s hnot').2]⟩

/-- A value that is ready denotes the same from then on. -/
theorem agree (h : Settled d t₀ t) (h' : Settled d t₀ t') (hkeeps : Keeps t t')
    (hv : Ready t₀ t v) (s : String) (hs : s ∈ v.symbols) : AgreeOn t t' s := by
  rcases hv s hs with hreg | hforeign
  · exact ⟨hkeeps.slots s hreg, hkeeps.types s hreg⟩
  · exact h.agreeOn_foreign h' hforeign

end Settled

theorem Keeps.register (t : Tables) (name text : String) (e : Expr) (type? : Option String)
    (slot : Slot) : Keeps t (t.register name text e type? slot) := by
  cases hfresh : t.isRegistered name with
  | true =>
    rw [register_of_registered hfresh]
    exact .refl t
  | false => exact (Adds.register hfresh text).keeps

/-! ### Values -/

/-- What becomes of the tables when the symbols are registered that a value defines. -/
structure Settling (d : Declarations) (t₀ t : Tables) (v : Value) : Prop where
  settled : Settled d t₀ (v.settle d t)
  keeps : Keeps t (v.settle d t)
  ready : Ready t₀ (v.settle d t) v
  new : ∀ s, (v.settle d t).isRegistered s = true →
    t.isRegistered s = true ∨ ∃ x ∈ v.definitions, x.name = s

namespace Settled

theorem registerDefinition (hfree : OrderFree d t₀) (h : Settled d t₀ t) {x : Definition}
    (hx : x ∈ t₀.definitions) (hready : Ready t₀ t x.inner) (text : String) :
    Settled d t₀ (t.register x.name text (x.inner.denote d t).expr (some (d.resolveType x.type))
      ((x.inner.denote d t).slot.getD (.ofRoot x.name))) := by
  cases hfresh : t.isRegistered x.name with
  | true => rwa [register_of_registered hfresh]
  | false =>
    refine h.adds (.register hfresh text) (.inr ⟨x, hx, rfl⟩) hready ?_ ?_ ?_
    · rintro type ⟨⟩ hvoid
      exact Tables.mem_voids.2 (.inr ⟨x, hx, rfl, hvoid⟩)
    · intro p hp hname
      exact absurd (hname ▸ mem_parameters_of_readable hp) (hfree.apart x hx)
    · intro y hy hname
      obtain rfl := hfree.consistent y hy x hx hname
      exact ⟨rfl, rfl⟩

/-- A parameter is registered with what its value denotes. -/
theorem registerParameter (hfree : OrderFree d t₀) (h : Settled d t₀ t) {p : String × Value}
    (hp : p ∈ t₀.readable) (hready : Ready t₀ t p.2) (text : String) :
    Settled d t₀ (Declarations.registerParameter p.1 text (p.2.denote d t) t) := by
  rw [Declarations.registerParameter]
  cases hfresh : t.isRegistered p.1 with
  | true => rwa [register_of_registered hfresh]
  | false =>
    refine h.adds (.register hfresh text) (.inl ⟨p, hp, rfl⟩) hready ?_ ?_ ?_
    · intro type htype hvoid
      split at htype
      · cases htype
      · next hcontains =>
        -- a void type could be narrowed before it is taken, so none is taken
        obtain ⟨s, hsymbol, hs⟩ := Option.bind_eq_some_iff.1 htype
        rw [Value.symbol_denote] at hsymbol
        have hin := hfree.voidTaken s (h.typed s type hs hvoid) p hp hsymbol
        rw [Std.ExtTreeMap.contains_eq_isSome_getElem?, (h.unregistered p.1 hfresh).2,
          ← Std.ExtTreeMap.mem_iff_isSome_getElem?] at hcontains
        exact absurd hin hcontains
    · intro q hq hname
      refine ⟨congrArg Prod.snd (readable_unique hq hp hname), ?_⟩
      rw [← (h.unregistered p.1 hfresh).2]
      split
      · next hcontains =>
        rw [Std.ExtTreeMap.contains_eq_isSome_getElem?] at hcontains
        obtain ⟨type, htype⟩ := Option.isSome_iff_exists.1 hcontains
        rw [htype, Option.none_or, Option.some_or]
      · next hcontains =>
        rw [Std.ExtTreeMap.getElem?_eq_none fun hmem =>
          hcontains (Std.ExtTreeMap.mem_iff_contains.1 hmem), Option.or_none, Option.none_or]
    · intro x hx hname
      exact absurd (hname ▸ mem_parameters_of_readable hp) (hfree.apart x hx)

/-- **The equations are kept** when the symbols are registered that a value defines. -/
theorem settle (hfree : OrderFree d t₀) (h : Settled d t₀ t)
    (hdefinitions : ∀ x ∈ v.definitions, x ∈ t₀.definitions)
    (hreferent : ∀ s ∈ v.referent?, t.isRegistered s = true ∨ t₀.Foreign s) :
    Settling d t₀ t v := by
  induction v with
  | atom text => exact ⟨h, .refl t, nofun, fun s hs => .inl hs⟩
  | reference symbol text =>
    refine ⟨h, .refl t, fun s hs => hreferent s ?_, fun s hs => .inl hs⟩
    simpa [Value.symbols, Value.referent?, Value.definitions, eq_comm] using hs
  | element base index type fields ih =>
    obtain ⟨hsettled, hkeeps, hready, hnew⟩ := ih hdefinitions hreferent
    exact ⟨hsettled, hkeeps, hready, hnew⟩
  | region inner fields ih =>
    obtain ⟨hsettled, hkeeps, hready, hnew⟩ := ih hdefinitions hreferent
    exact ⟨hsettled, hkeeps, hready, hnew⟩
  | definition name type inner source ih =>
    obtain ⟨hsettled, hkeeps, hready, hnew⟩ :=
      ih (fun x hx => hdefinitions x (List.mem_cons_of_mem _ hx)) hreferent
    have hx := hdefinitions ⟨name, type, inner⟩ List.mem_cons_self
    have hstep := Keeps.register (inner.settle d t) name source
      (inner.denote d (inner.settle d t)).expr (some (d.resolveType type))
      ((inner.denote d (inner.settle d t)).slot.getD (.ofRoot name))
    -- what is inside is settled first, so the symbol gets what it denotes
    refine ⟨hsettled.registerDefinition hfree hx hready source, hkeeps.trans hstep, ?_, ?_⟩
    · intro s hs
      rcases List.mem_append.1 hs with hs | hs
      · exact (hready.mono hstep.registered) s (List.mem_append_left _ hs)
      · rcases List.mem_cons.1 hs with rfl | hs
        · exact .inl (isRegistered_register ..)
        · exact (hready.mono hstep.registered) s (List.mem_append_right _ hs)
    · intro s hs
      rcases isRegistered_register_iff.1 hs with rfl | hs
      · exact .inr ⟨_, List.mem_cons_self, rfl⟩
      · rcases hnew s hs with hold | ⟨y, hy, hname⟩
        · exact .inl hold
        · exact .inr ⟨y, List.mem_cons_of_mem _ hy, hname⟩

/-- A symbol is void only if it was declared so. -/
theorem mem_voids (h : Settled d t₀ t) (hdefinitions : ∀ x ∈ v.definitions, x ∈ t₀.definitions)
    (hready : Ready t₀ t v)
    (hglobal : v.referent?.isSome = true → (d.variableType? v.leaf).any d.isVoid = false)
    {s : String} (hs : v.symbol? = some s)
    (hvoid : (d.typeOf? t (v.denote d t)).any d.isVoid = true) : s ∈ t₀.voids d := by
  rw [Declarations.typeOf?, Value.symbol_denote, hs, Option.bind_some] at hvoid
  cases htype : t.types[s]? with
  | some type =>
    rw [htype, Option.some_or, Option.any_some] at hvoid
    exact h.typed s type htype hvoid
  | none =>
    rw [htype, Option.none_or] at hvoid
    rcases Value.name?_denote (d := d) (t := t) hs with ⟨x, hx, rfl⟩ | ⟨hsome, hname⟩
    · -- a symbol that is defined has a type
      have hreg := (hready x.name (List.mem_append_right _ (List.mem_map_of_mem hx))).resolve_right
        fun hforeign => hforeign.2 x (hdefinitions x hx) rfl
      rw [(h.definition x (hdefinitions x hx) hreg).2] at htype
      cases htype
    · rw [hname, Option.bind_some, hglobal hsome] at hvoid
      cases hvoid

end Settled

end Tables

end TestSynth
