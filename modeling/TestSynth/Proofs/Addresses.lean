import TestSynth.Proofs.Acyclic
import TestSynth.Proofs.Layers
import TestSynth.Proofs.RoundTrip
import TestSynth.Proofs.Turns
import Mathlib.Order.Bounds.Basic

/-!
# Addresses

Which storage a value addresses can be told from the trees alone: an element is one step further
than its base, a definition, a region or a reference is where its value is, and whatever has no
address becomes the root of storage of its own as soon as a symbol stands for it.  `Addresses` is
this recursion through the trees and the references between them.

* `Addresses.unique` : there is at most one address.
* `Tables.Traced.bind` : a value is bound to its address, if its referent was registered with it.
* `Declarations.resolveParameters_traceable` : whatever the order of the parameters, all symbols are
  registered with their addresses, and the size of a slot is what the elements all over the case ask
  for.
-/

namespace TestSynth

namespace ValueTree

/-- The definitions in a tree, the outermost first. -/
def definitions : ValueTree → List (String × ValueTree)
  | atom _ => []
  | element base .. => base.definitions
  | region inner _ => inner.definitions
  | definition name _ inner => (name.text, inner) :: inner.definitions

/-- The elements in a tree: what they are elements of, and their indices. -/
def elements : ValueTree → List (ValueTree × InnerIndex)
  | atom _ => []
  | element base index .. => (base, index) :: base.elements
  | region inner _ => inner.elements
  | definition _ _ inner => inner.elements

theorem definitions_toValue (v : ValueTree) :
    v.toValue.definitions.map (·.name) = v.definitions.map Prod.fst := by
  induction v with
  | atom a =>
    rw [toValue]
    cases a.symbol <;> rfl
  | element base index type fields ih => exact ih
  | region inner fields ih => exact ih
  | definition name type inner ih => exact congrArg (name.text :: ·) ih

end ValueTree

/-! ### Addresses -/

/-- The slot that a tree addresses, if it addresses one. -/
inductive Addresses (trees : Table ValueTree) : ValueTree → Option Slot → Prop
  | plain {a : Atom} (h : a.symbol = none) : Addresses trees (.atom a) none
  /-- A reference addresses what its parameter does. -/
  | reference {a : Atom} {symbol : String} {v : ValueTree} {slot? : Option Slot}
    (h : a.symbol = some symbol) (hv : trees[symbol]? = some v) (hslot : Addresses trees v slot?) :
    Addresses trees (.atom a) (some (slot?.getD (.ofRoot symbol)))
  | element {base : ValueTree} {index : InnerIndex} {type : TypeText} {slot? : Option Slot}
    (hbase : Addresses trees base slot?) :
    Addresses trees (.element base index type []) (slot?.map Slot.element)
  | elementField {base : ValueTree} {index : InnerIndex} {type : TypeText} {field : Word}
    {fields : List Word} : Addresses trees (.element base index type (field :: fields)) none
  | region {inner : ValueTree} {slot? : Option Slot} (hinner : Addresses trees inner slot?) :
    Addresses trees (.region inner []) slot?
  | regionField {inner : ValueTree} {field : Word} {fields : List Word} :
    Addresses trees (.region inner (field :: fields)) none
  /-- A definition addresses what its value does, or is the root of storage of its own. -/
  | definition {name : RegisterName} {type : ItemType} {inner : ValueTree} {slot? : Option Slot}
    (hinner : Addresses trees inner slot?) :
    Addresses trees (.definition name type inner) (some (slot?.getD (.ofRoot name.text)))

/-- A tree has one address. -/
theorem Addresses.unique {trees : Table ValueTree} {v : ValueTree} {slot? slot?' : Option Slot}
    (h : Addresses trees v slot?) (h' : Addresses trees v slot?') : slot? = slot?' := by
  induction h generalizing slot?' with
  | plain h =>
    cases h' with
    | plain _ => rfl
    | reference h' _ _ =>
      rw [h] at h'
      cases h'
  | reference h hv _ ih =>
    cases h' with
    | plain h' =>
      rw [h] at h'
      cases h'
    | reference h' hv' hslot' =>
      obtain rfl := Option.some.inj (h.symm.trans h')
      obtain rfl := Option.some.inj (hv.symm.trans hv')
      rw [ih hslot']
  | element _ ih =>
    cases h' with
    | element hbase' => rw [ih hbase']
  | elementField => cases h'; rfl
  | region _ ih =>
    cases h' with
    | region hinner' => exact ih hinner'
  | regionField => cases h'; rfl
  | definition _ ih =>
    cases h' with
    | definition hinner' => rw [ih hinner']

/-- An element inside the tree `v` is the one at `a.index` behind `a.slot`. -/
def Touches (trees : Table ValueTree) (v : ValueTree) (a : Access) : Prop :=
  ∃ base index, (base, index) ∈ v.elements ∧ Addresses trees base (some a.slot) ∧
    a.index = index.value

/-! ### Cases of trees -/

/-- The definitions in the values of parameters. -/
def definedIn (trees : Table ValueTree) : List (String × ValueTree) :=
  trees.toList.flatMap fun entry => entry.2.definitions

/-- The symbol stands for a tree, as a parameter or by a definition. -/
inductive StandsFor (trees : Table ValueTree) : String → ValueTree → Prop
  | parameter {s : String} {v : ValueTree} (h : trees[s]? = some v) : StandsFor trees s v
  | definition {x : String × ValueTree} (h : x ∈ definedIn trees) : StandsFor trees x.1 x.2

/-- The value of the parameter `s` refers to `s'`. -/
def RefersTo (trees : Table ValueTree) (s s' : String) : Prop :=
  ∃ v, trees[s]? = some v ∧ v.referent? = some s'

/-- Every reference can be followed to its end. -/
structure Traceable (trees : Table ValueTree) : Prop where
  /-- References are to parameters. -/
  known : ∀ s s', RefersTo trees s s' → s' ∈ trees
  /-- No symbol is defined twice. -/
  distinct : ((definedIn trees).map Prod.fst).Nodup
  /-- No parameter is defined inside a value. -/
  apart : ∀ x ∈ definedIn trees, x.1 ∉ trees
  acyclic : Acyclic (RefersTo trees)

variable {d : Declarations} {trees : Table ValueTree} {t t' : Tables} {s : String}
  {v w : ValueTree}

theorem mem_definedIn {x : String × ValueTree} (hv : trees[s]? = some v) (hx : x ∈ v.definitions) :
    x ∈ definedIn trees :=
  List.mem_flatMap.2 ⟨(s, v), Std.ExtTreeMap.mem_toList_iff_getElem?_eq_some.2 hv, hx⟩

/-- A symbol stands for one tree. -/
theorem Traceable.unique (htrees : Traceable trees) (hv : StandsFor trees s v)
    (hw : StandsFor trees s w) : v = w := by
  cases hv with
  | parameter hv =>
    cases hw with
    | parameter hw => exact Option.some.inj (hv.symm.trans hw)
    | definition hx => exact absurd (Table.mem_of_getElem? hv) (htrees.apart _ hx)
  | @definition x hx =>
    generalize hname : x.1 = name at hw
    cases hw with
    | parameter hw => exact absurd (hname ▸ Table.mem_of_getElem? hw) (htrees.apart _ hx)
    | @definition y hy =>
      rw [List.inj_on_of_nodup_map htrees.distinct hx hy hname]

/-- References lead to parameters, and to smaller ranks. -/
def Ranked (rank : String → Nat) (trees : Table ValueTree) : Prop :=
  ∀ entry ∈ trees.toList, ∀ s' ∈ entry.2.referent?, s' ∈ trees ∧ rank s' < rank entry.1

instance (rank : String → Nat) (trees : Table ValueTree) : Decidable (Ranked rank trees) :=
  inferInstanceAs (Decidable (∀ entry ∈ trees.toList, _))

theorem Traceable.of_rank (rank : String → Nat) (h : Ranked rank trees)
    (hdistinct : ((definedIn trees).map Prod.fst).Nodup)
    (hapart : ∀ x ∈ definedIn trees, x.1 ∉ trees) : Traceable trees := by
  have hrefers (s s' : String) : RefersTo trees s s' → s' ∈ trees ∧ rank s' < rank s := by
    rintro ⟨v, hv, hreferent⟩
    exact h (s, v) (Std.ExtTreeMap.mem_toList_iff_getElem?_eq_some.2 hv) s' hreferent
  exact ⟨fun s s' hs => (hrefers s s' hs).1, hdistinct, hapart,
    .of_rank rank fun s s' hs => (hrefers s s' hs).2⟩

/-! ### Tables -/

namespace Tables

/-- All symbols that are registered have the addresses of their trees. -/
def Traced (trees : Table ValueTree) (t : Tables) : Prop :=
  ∀ (s : String) (slot : Slot), t.slots[s]? = some slot → ∃ v slot?, StandsFor trees s v ∧
    Addresses trees v slot? ∧ slot = slot?.getD (.ofRoot s)

namespace Traced

theorem addresses (htrees : Traceable trees) (h : t.Traced trees) (hreg : t.isRegistered s = true)
    (hv : StandsFor trees s v) :
    ∃ slot?, Addresses trees v slot? ∧ t.slots[s]? = some (slot?.getD (.ofRoot s)) := by
  have hslot := Std.ExtTreeMap.getElem?_eq_some_getElem (isRegistered_iff.1 hreg)
  obtain ⟨w, slot?, hw, haddress, heq⟩ := h s _ hslot
  rw [htrees.unique hv hw]
  exact ⟨slot?, haddress, by rw [hslot, heq]⟩

/-- A symbol may be registered with the address of its tree. -/
theorem register (h : t.Traced trees) (hv : StandsFor trees s v) {slot? : Option Slot}
    (haddress : Addresses trees v slot?) (text : String) (expr : Expr) (type? : Option String) :
    (t.register s text expr type? (slot?.getD (.ofRoot s))).Traced trees := by
  cases hreg : t.isRegistered s with
  | true => rwa [register_of_registered hreg]
  | false =>
    rw [register_of_fresh hreg]
    intro name slot hslot
    rw [Std.ExtTreeMap.getElem?_insert] at hslot
    split at hslot
    · next heq =>
      cases hslot
      obtain rfl := Std.compare_eq_iff_eq.1 heq
      exact ⟨v, slot?, hv, haddress, rfl⟩
    · exact h name slot hslot

/-- **A tree is bound to its address**, if its referent is registered. -/
theorem bind (htrees : Traceable trees) (h : t.Traced trees)
    (hdefinitions : ∀ x ∈ v.definitions, x ∈ definedIn trees)
    (hreferent : ∀ symbol, v.referent? = some symbol →
      symbol ∈ trees ∧ t.isRegistered symbol = true) :
    (v.toValue.bind d t).2.Traced trees ∧ Addresses trees v (v.toValue.bind d t).1.slot := by
  induction v with
  | atom a =>
    cases hsymbol : a.symbol with
    | none =>
      simp only [ValueTree.toValue, hsymbol, Option.elim_none, Value.bind]
      exact ⟨h, .plain hsymbol⟩
    | some symbol =>
      simp only [ValueTree.toValue, hsymbol, Option.elim_some, Value.bind]
      -- the referent is a parameter that is registered, so with the address of its own tree
      obtain ⟨hmem, hreg⟩ := hreferent symbol hsymbol
      have hw := Std.ExtTreeMap.getElem?_eq_some_getElem hmem
      obtain ⟨slot?, haddress, hslot⟩ := h.addresses htrees hreg (.parameter hw)
      rw [hslot]
      exact ⟨h, .reference hsymbol hw haddress⟩
  | element base index type fields ih =>
    obtain ⟨hbase, haddress⟩ := ih hdefinitions hreferent
    obtain ⟨e, types, heq⟩ := Value.bindElement_eq d (base.toValue.bind d t).1 index.value type.text
      (base.toValue.bind d t).2
    have htraced : (Value.bindElement d (base.toValue.bind d t).1 index.value type.text
        (base.toValue.bind d t).2).2.Traced trees := by
      rw [heq, Value.elementOver]
      cases (base.toValue.bind d t).1.slot <;> exact hbase
    cases fields with
    | nil =>
      refine ⟨htraced, ?_⟩
      show Addresses trees _ (Value.bindElement ..).1.slot
      rw [heq]
      exact .element haddress
    | cons field fields => exact ⟨htraced, .elementField⟩
  | region inner fields ih =>
    obtain ⟨hinner, haddress⟩ := ih hdefinitions hreferent
    cases fields with
    | nil => exact ⟨hinner, .region haddress⟩
    | cons field fields => exact ⟨hinner, .regionField⟩
  | definition name type inner ih =>
    obtain ⟨hinner, haddress⟩ :=
      ih (fun x hx => hdefinitions x (List.mem_cons_of_mem _ hx)) hreferent
    have hname : StandsFor trees name.text inner :=
      .definition (x := (name.text, inner)) (hdefinitions _ List.mem_cons_self)
    have htraced := hinner.register hname haddress inner.spelling
      (inner.toValue.bind d t).1.expr (some (d.resolveType type.text))
    refine ⟨htraced, ?_⟩
    -- if the symbol was registered before, it was registered with the same address
    obtain ⟨slot?, haddress', hslot⟩ := htraced.addresses htrees (isRegistered_register ..) hname
    show Addresses trees _ (Tables.slots _)[name.text]?
    rw [hslot]
    exact .definition haddress'

/-- The accesses of a tree are the elements inside it. -/
theorem mem_accesses (htrees : Traceable trees) (h : t.Traced trees)
    (hdefinitions : ∀ x ∈ v.definitions, x ∈ definedIn trees)
    (hreferent : ∀ symbol, v.referent? = some symbol →
      symbol ∈ trees ∧ t.isRegistered symbol = true) (a : Access) :
    a ∈ v.toValue.accesses d t ↔ Touches trees v a := by
  induction v with
  | atom atom =>
    cases hsymbol : atom.symbol <;>
      simp [ValueTree.toValue, hsymbol, Value.accesses, Touches, ValueTree.elements]
  | element base index type fields ih =>
    have haddress := (h.bind (d := d) htrees hdefinitions hreferent (v := base)).2
    simp only [ValueTree.toValue, Value.accesses, List.mem_append, ih hdefinitions hreferent]
    generalize (base.toValue.bind d t).1.slot = slot? at haddress
    constructor
    · rintro (⟨base', index', hmem, haddress', hindex⟩ | hmem)
      · exact ⟨base', index', List.mem_cons_of_mem _ hmem, haddress', hindex⟩
      · obtain ⟨slot, rfl, rfl⟩ := Option.map_eq_some_iff.1 (Option.mem_toList.1 hmem)
        exact ⟨base, index, List.mem_cons_self, haddress, rfl⟩
    · rintro ⟨base', index', hmem, haddress', hindex⟩
      rcases List.mem_cons.1 hmem with heq | hmem
      · cases heq
        obtain rfl := haddress.unique haddress'
        refine .inr (Option.mem_toList.2 ?_)
        rw [Option.map_some, ← hindex]
      · exact .inl ⟨base', index', hmem, haddress', hindex⟩
  | region inner fields ih => exact ih hdefinitions hreferent
  | definition name type inner ih =>
    exact ih (fun x hx => hdefinitions x (List.mem_cons_of_mem _ hx)) hreferent

end Traced

/-! ### Sizes -/

/-- The slots that have sizes are those that were accessed. -/
def Indexed (t : Tables) (accesses : List Access) : Prop :=
  ∀ slot, slot ∈ t.sizes ↔ ∃ index, Access.mk slot index ∈ accesses

theorem mem_sizes_bindElement {b : Bound} {index : Int} {type : String} {slot : Slot} :
    slot ∈ (Value.bindElement d b index type t).2.sizes ↔
      slot ∈ t.sizes ∨ b.slot = some slot := by
  obtain ⟨e, types, heq⟩ := Value.bindElement_eq d b index type t
  rw [heq, Value.elementOver]
  cases b.slot with
  | none => simp
  | some slot' =>
    rw [Option.elim_some, recordSize, Std.ExtTreeMap.mem_insert, Std.compare_eq_iff_eq,
      Option.some.injEq, or_comm]

theorem mem_sizes_bind {v : Value} {slot : Slot} :
    slot ∈ (v.bind d t).2.sizes ↔
      slot ∈ t.sizes ∨ ∃ index, Access.mk slot index ∈ v.accesses d t := by
  induction v generalizing t with
  | atom text => simp [Value.bind, Value.accesses]
  | reference symbol text => simp [Value.bind, Value.accesses]
  | element base index type fields ih =>
    have haccess : (∃ i, Access.mk slot i ∈
        ((base.bind d t).1.slot.map fun slot => Access.mk slot index).toList) ↔
          (base.bind d t).1.slot = some slot := by
      simp
    simp only [Value.bind, Value.accesses, List.mem_append, exists_or]
    split <;> rw [mem_sizes_bindElement, ih, haccess, or_assoc]
  | region inner fields ih =>
    simp only [Value.bind, Value.accesses]
    split <;> exact ih
  | definition name type inner source ih =>
    simp only [Value.bind, Value.accesses]
    rw [sizes_register, ih]

/-- The size of a slot is the greatest one that its accesses ask for. -/
theorem sizes_eq_some_iff {accesses : List Access} (hrecords : t.Records accesses)
    (hindexed : t.Indexed accesses) {slot : Slot} {n : Nat} :
    t.sizes[slot]? = some n ↔
      IsGreatest {m | ∃ index, Access.mk slot index ∈ accesses ∧ m = sizeForIndex index} n := by
  have hforth {n : Nat} (h : t.sizes[slot]? = some n) :
      IsGreatest {m | ∃ index, Access.mk slot index ∈ accesses ∧ m = sizeForIndex index} n := by
    have hlt (k : Nat) :
        k < n ↔ ∃ index, Access.mk slot index ∈ accesses ∧ k < sizeForIndex index := by
      have := hrecords slot k
      rwa [h] at this
    have hle (index : Int) (hin : Access.mk slot index ∈ accesses) : sizeForIndex index ≤ n := by
      by_contra hnot
      exact Nat.lt_irrefl n ((hlt n).2 ⟨index, hin, by omega⟩)
    refine ⟨?_, fun m ⟨index, hin, hm⟩ => hm ▸ hle index hin⟩
    cases n with
    | zero =>
      -- there was an access, and it asked for nothing
      obtain ⟨index, hin⟩ :=
        (hindexed slot).1 (Std.ExtTreeMap.mem_iff_isSome_getElem?.2 (by rw [h]; rfl))
      exact ⟨index, hin, (Nat.le_zero.1 (hle index hin)).symm⟩
    | succ k =>
      obtain ⟨index, hin, hk⟩ := (hlt k).1 (Nat.lt_succ_self k)
      exact ⟨index, hin, Nat.le_antisymm hk (hle index hin)⟩
  refine ⟨hforth, fun h => ?_⟩
  obtain ⟨⟨index, hin, -⟩, -⟩ := id h
  have hm := Std.ExtTreeMap.getElem?_eq_some_getElem ((hindexed slot).2 ⟨index, hin⟩)
  rw [hm, (hforth hm).unique h]

end Tables

/-! ### Resolution -/

/-- The tables after some parameters had their turns. -/
structure Tracing (trees : Table ValueTree) (t : Tables) : Prop where
  traced : t.Traced trees
  /-- What is defined inside the trees of these parameters is registered. -/
  defined : ∀ s v, trees[s]? = some v → t.isRegistered s = true →
    ∀ x ∈ v.definitions, t.isRegistered x.1 = true
  /-- What was accessed are the elements inside the trees of these parameters. -/
  accesses : ∃ accesses, t.Records accesses ∧ t.Indexed accesses ∧ ∀ a, a ∈ accesses ↔
    ∃ s v, trees[s]? = some v ∧ t.isRegistered s = true ∧ Touches trees v a

theorem Tracing.intake (d : Declarations) (c : Case) : Tracing trees (c.intake d) where
  traced s slot h := by simp [Case.intake] at h
  defined s v _ h := by simp [Case.intake, Tables.isRegistered] at h
  accesses := ⟨[], .intake d c, by simp [Tables.Indexed, Case.intake],
    by simp [Case.intake, Tables.isRegistered]⟩

theorem eq_toValue_of_parse {limit : Nat} {value : Value}
    (h : Value.parse limit v.spelling = .ok value) : value = v.toValue := by
  have hmore := Value.parse_mono (Nat.le_max_left limit v.depth) h
  rw [Value.parse_spelling (Nat.le_max_right limit v.depth)] at hmore
  exact (Except.ok.inj hmore).symm

section Printed

variable {t₀ : Tables} {limit : Nat}
  (hprinted : t₀.parameters = trees.map fun _ v => v.spelling)

include hprinted

theorem exists_tree {text : String} {value : Value} (htext : t₀.parameters[s]? = some text)
    (hparse : Value.parse limit text = .ok value) :
    ∃ v, trees[s]? = some v ∧ value = v.toValue := by
  rw [hprinted, Std.ExtTreeMap.getElem?_map] at htext
  obtain ⟨v, hv, rfl⟩ := Option.map_eq_some_iff.1 htext
  exact ⟨v, hv, eq_toValue_of_parse hparse⟩

theorem RefersTo.of_refers {s' : String} (h : Refers limit t₀ s s') : RefersTo trees s s' := by
  obtain ⟨text, value, htext, hparse, hreferent⟩ := h
  obtain ⟨v, hv, rfl⟩ := exists_tree hprinted htext hparse
  exact ⟨v, hv, by rwa [Value.referent?_toValue] at hreferent⟩

/-- The referent of a tree is registered when the tree has its turn: if it waited for the tree, it
would close a circle. -/
theorem isRegistered_referent (htrees : Traceable trees) (hv : trees[s]? = some v)
    (hwaits : ∀ symbol ∈ v.toValue.referent?, t.isRegistered symbol = true ∨
      symbol ∉ t₀.parameters ∨ Relation.ReflTransGen (Refers limit t₀) symbol s)
    {symbol : String} (hsymbol : v.referent? = some symbol) :
    symbol ∈ trees ∧ t.isRegistered symbol = true := by
  have hrefers : RefersTo trees s symbol := ⟨v, hv, hsymbol⟩
  have hmem := htrees.known s symbol hrefers
  refine ⟨hmem, ?_⟩
  rcases hwaits symbol (by rw [Value.referent?_toValue, hsymbol]; rfl) with hreg | hnot | hcircle
  · exact hreg
  · rw [hprinted, Std.ExtTreeMap.mem_map] at hnot
    exact absurd hmem hnot
  · exact absurd (.head' hrefers (hcircle.lift id fun _ _ => .of_refers hprinted))
      (htrees.acyclic s)

/-- **A turn keeps the addresses**, and it adds the accesses of the tree. -/
theorem Tracing.turn (htrees : Traceable trees) (h : Tracing trees t)
    (hturn : Turn d limit t₀ t t') : Tracing trees t' := by
  obtain @⟨name, text, value, t, htext, hparse, hwaits⟩ := hturn
  obtain ⟨v, hv, rfl⟩ := exists_tree hprinted htext hparse
  have hdefinitions (x : String × ValueTree) (hx : x ∈ v.definitions) : x ∈ definedIn trees :=
    mem_definedIn hv hx
  have hreferent (symbol : String) (hsymbol : v.referent? = some symbol) :=
    isRegistered_referent hprinted htrees hv hwaits hsymbol
  obtain ⟨htraced, haddress⟩ := h.traced.bind (d := d) htrees hdefinitions hreferent
  obtain ⟨accesses, hrecords, hindexed, hmem⟩ := h.accesses
  have hregistered (s : String) : (Declarations.registerParameter name text
      (v.toValue.bind d t).1 (v.toValue.bind d t).2).isRegistered s = true ↔
        s = name ∨ s ∈ v.definitions.map Prod.fst ∨ t.isRegistered s = true := by
    rw [isRegistered_turn, ← v.definitions_toValue, List.mem_map]
  -- besides this parameter, no other one was registered
  have hparameter {s : String} {w : ValueTree} (hw : trees[s]? = some w)
      (hs : s = name ∨ s ∈ v.definitions.map Prod.fst ∨ t.isRegistered s = true) :
      s = name ∨ t.isRegistered s = true := by
    refine hs.imp_right fun hs => hs.resolve_left fun hs => ?_
    obtain ⟨x, hx, rfl⟩ := List.mem_map.1 hs
    exact htrees.apart x (hdefinitions x hx) (Table.mem_of_getElem? hw)
  refine ⟨htraced.register (.parameter hv) haddress text _ _, fun s w hw hs x hx => ?_,
    accesses ++ v.toValue.accesses d t, (hrecords.bind v.toValue).register name text _ _ _,
    fun slot => ?_, fun a => ?_⟩
  · rw [hregistered] at hs ⊢
    rcases hparameter hw hs with rfl | hreg
    · obtain rfl := Option.some.inj (hv.symm.trans hw)
      exact .inr (.inl (List.mem_map_of_mem hx))
    · exact .inr (.inr (h.defined s w hw hreg x hx))
  · rw [Declarations.registerParameter, Tables.sizes_register, Tables.mem_sizes_bind, hindexed]
    simp only [List.mem_append, exists_or]
  · rw [List.mem_append, hmem, h.traced.mem_accesses htrees hdefinitions hreferent]
    simp only [hregistered]
    constructor
    · rintro (⟨s, w, hw, hreg, ha⟩ | ha)
      · exact ⟨s, w, hw, .inr (.inr hreg), ha⟩
      · exact ⟨name, v, hv, .inl rfl, ha⟩
    · rintro ⟨s, w, hw, hs, ha⟩
      rcases hparameter hw hs with rfl | hreg
      · obtain rfl := Option.some.inj (hv.symm.trans hw)
        exact .inr ha
      · exact .inl ⟨s, w, hw, hreg, ha⟩

theorem Tracing.turns (htrees : Traceable trees) (h : Tracing trees t)
    (hturns : Turns d limit t₀ t t') : Tracing trees t' := by
  induction hturns with
  | refl => exact h
  | tail _ hturn ih => exact ih.turn hprinted htrees hturn

end Printed

namespace Declarations

/-- **Every reference finds its owner**, whatever the order of the parameters.  If the parameters of
a case are printed trees whose references can be followed to the end, and if they can be resolved,
then each symbol has one address and is registered with it, or as a root of its own; and the size of
a slot is the greatest one that an element anywhere in the case asks for, if there is one. -/
theorem resolveParameters_traceable {d : Declarations} {c : Case} {trees : Table ValueTree}
    {t : Tables} (hprinted : (c.intake d).parameters = trees.map fun _ v => v.spelling)
    (htrees : Traceable trees) (hok : d.resolveParameters (c.intake d) = (.ok (), t)) :
    (∀ s v, StandsFor trees s v → ∃! slot?, Addresses trees v slot?) ∧
    (∀ s v slot?, StandsFor trees s v → Addresses trees v slot? →
      t.slots[s]? = some (slot?.getD (.ofRoot s))) ∧
    ∀ slot n, t.recordedSize? slot.root slot.depth = some n ↔
      IsGreatest {m | ∃ (s : String) (v base : ValueTree) (index : InnerIndex),
        trees[s]? = some v ∧ (base, index) ∈ v.elements ∧ Addresses trees base (some slot) ∧
          m = (index.value + 1).toNat} n := by
  have htracing : Tracing trees t :=
    (Tracing.intake d c).turns hprinted htrees (turns_of_resolveParameters hok)
  have hregistered {s : String} {v : ValueTree} (hv : trees[s]? = some v) :
      t.isRegistered s = true := by
    refine isRegistered_of_resolveEach hok (mem_schedule.2 ?_) ?_ <;>
    · rw [hprinted, Std.ExtTreeMap.mem_map]
      exact Table.mem_of_getElem? hv
  have hslot {s : String} {v : ValueTree} (hv : StandsFor trees s v) :
      ∃ slot?, Addresses trees v slot? ∧ t.slots[s]? = some (slot?.getD (.ofRoot s)) := by
    have hreg : t.isRegistered s = true := by
      cases hv with
      | parameter hv => exact hregistered hv
      | definition hx =>
        obtain ⟨⟨s, v⟩, hmem, hx⟩ := List.mem_flatMap.1 hx
        have hv := Std.ExtTreeMap.mem_toList_iff_getElem?_eq_some.1 hmem
        exact htracing.defined s v hv (hregistered hv) _ hx
    exact htracing.traced.addresses htrees hreg hv
  refine ⟨fun s v hv => ?_, fun s v slot? hv haddress => ?_, fun slot n => ?_⟩
  · obtain ⟨slot?, haddress, -⟩ := hslot hv
    exact ⟨slot?, haddress, fun slot?' h => h.unique haddress⟩
  · obtain ⟨slot?', haddress', hslot⟩ := hslot hv
    rw [hslot, haddress.unique haddress']
  · -- the accesses of the resolution are the elements inside the trees
    obtain ⟨accesses, hrecords, hindexed, hmem⟩ := htracing.accesses
    refine (Tables.sizes_eq_some_iff hrecords hindexed).trans
      (iff_of_eq (congrArg (IsGreatest · n) ?_))
    ext m
    simp only [Set.mem_ofPred_eq, hmem, Touches]
    constructor
    · rintro ⟨_, ⟨s, v, hv, -, base, index, helement, haddress, rfl⟩, rfl⟩
      exact ⟨s, v, base, index, hv, helement, haddress, Value.sizeForIndex_inner index⟩
    · rintro ⟨s, v, base, index, hv, helement, haddress, rfl⟩
      exact ⟨index.value, ⟨s, v, hv, hregistered hv, base, index, helement, haddress, rfl⟩,
        (Value.sizeForIndex_inner index).symm⟩

theorem trimmed_int : Text.trimmed "int" = "int" := by decide +kernel

theorem isBalanced_int : Token.isBalanced 0 (Token.ofText "int") = true := by decide +kernel

/-- A buffer of buffers, which is defined in the last value and indexed in those before. -/
def backwardTrees : Table ValueTree :=
  have hrow : Token.ofText "reg_$4" = [.register "reg_$4"] := by decide +kernel
  have hplain : Token.ofText "m" = [.word "m"] := by decide +kernel
  let int : TypeText := ⟨"int", trimmed_int, isBalanced_int⟩
  let next : Word := ⟨"next", by decide +kernel⟩
  let buffer : ValueTree := .atom ⟨"reg_$4", some "reg_$4", hrow ▸ .register _, by decide +kernel⟩
  .ofList [
    ("reg_$0", ValueTree.element (.region buffer []) ⟨3, by decide, by decide⟩ int []),
    ("reg_$1", ValueTree.element buffer ⟨7, by decide, by decide⟩ int [next]),
    ("reg_$4", ValueTree.element
      (.definition ⟨"reg_$9", by decide +kernel⟩
        ⟨⟨"int **", by decide +kernel, by decide +kernel⟩, by decide +kernel⟩
        (.atom ⟨"m", none, hplain ▸ .word _, by decide +kernel⟩))
      ⟨1, by decide, by decide⟩ ⟨"int *", by decide +kernel, by decide +kernel⟩ [])]

/-- The case with these values. -/
def backwardCase : Case where
  parameters := backwardTrees.map fun _ v => v.spelling

theorem resolveParameters_backwardCase :
    (backwardCase.intake {}).parameters = (backwardTrees.map fun _ v => v.spelling) ∧
    Traceable backwardTrees ∧
    ∃ t, resolveParameters {} (backwardCase.intake {}) = (.ok (), t) ∧
      (∀ v slot?, backwardTrees["reg_$0"]? = some v → Addresses backwardTrees v slot? →
        some (slot?.getD (.ofRoot "reg_$0")) = some ⟨"reg_$9", 2⟩) ∧
      IsGreatest {m | ∃ (s : String) (v base : ValueTree) (index : InnerIndex),
        backwardTrees[s]? = some v ∧ (base, index) ∈ v.elements ∧
          Addresses backwardTrees base (some ⟨"reg_$9", 1⟩) ∧ m = (index.value + 1).toNat} 8 := by
  have hprinted : (backwardCase.intake {}).parameters =
      backwardTrees.map fun _ v => v.spelling := by decide +kernel
  have htraceable : Traceable backwardTrees :=
    .of_rank (fun s => if s = "reg_$4" then 0 else 1) (by decide +kernel)
      (by decide +kernel) (by decide +kernel)
  have hrun : let outcome := resolveParameters {} (backwardCase.intake {})
      outcome.1 = .ok () ∧ outcome.2.slots["reg_$0"]? = some ⟨"reg_$9", 2⟩ ∧
      outcome.2.recordedSize? "reg_$9" 1 = some 8 := by decide +kernel
  obtain ⟨hfst, hslot, hsize⟩ := hrun
  have hok : resolveParameters {} (backwardCase.intake {}) =
      (.ok (), (resolveParameters {} (backwardCase.intake {})).2) := Prod.ext hfst rfl
  obtain ⟨-, hslots, hsizes⟩ := resolveParameters_traceable hprinted htraceable hok
  refine ⟨hprinted, htraceable, _, hok, fun v slot? hv haddress => ?_, (hsizes ⟨_, 1⟩ 8).1 hsize⟩
  rw [← hslots "reg_$0" v slot? (.parameter hv) haddress, hslot]

end Declarations

end TestSynth
