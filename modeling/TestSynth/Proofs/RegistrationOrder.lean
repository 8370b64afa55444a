import TestSynth.Proofs.Ownership
import TestSynth.Proofs.Settled
import TestSynth.Proofs.Turns

/-!
# The order of registration

A symbol is registered when its value has been bound.  By then the symbols that are defined inside
the value are registered, and so is the parameter that the value refers to, unless its references
lead back to it.  All other symbols come in the order in which the parameters have their turns,
whatever their values look like.

* `BuildsOn` : a symbol has another one in its value, whichever value it is registered with.
* `Founded.bind` : binding a value keeps it that symbols are registered after what they build on.
* `Declarations.idxOf_lt_of_buildsOn` : so it is when all parameters are resolved.
-/

namespace TestSynth

open Relation (ReflTransGen TransGen)

variable {d : Declarations} {limit : Nat} {t₀ t t' : Tables} {s r : String} {v : Value}

/-! ### What a symbol builds on -/

/-- The values that the symbol `s` may be registered with: its own, if it is a parameter, and those
that it is defined as inside the values of parameters. -/
inductive ValueOf (limit : Nat) (t₀ : Tables) (s : String) : Value → Prop
  | parameter {text : String} {v : Value} (htext : t₀.parameters[s]? = some text)
    (hparse : Value.parse limit text = .ok v) : ValueOf limit t₀ s v
  | definition {name text : String} {v : Value} {x : Definition}
    (htext : t₀.parameters[name]? = some text) (hparse : Value.parse limit text = .ok v)
    (hx : x ∈ v.definitions) (hname : x.name = s) : ValueOf limit t₀ s x.inner

/-- The symbol `r` is defined inside the value, or it is the parameter that the value refers to and
does not lead back to itself. -/
def Value.RestsOn (limit : Nat) (t₀ : Tables) (v : Value) (r : String) : Prop :=
  (∃ x ∈ v.definitions, x.name = r) ∨
    v.referent? = some r ∧ r ∈ t₀.parameters ∧ ¬TransGen (Refers limit t₀) r r

/-- Whichever value `s` is registered with, it rests on `r`. -/
def BuildsOn (limit : Nat) (t₀ : Tables) (s r : String) : Prop :=
  ∀ v, ValueOf limit t₀ s v → v.RestsOn limit t₀ r

theorem valueOf_iff : ValueOf Value.defaultLimit t₀ s v ↔
    (s, v) ∈ t₀.readable ∨ ∃ x ∈ t₀.definitions, x.name = s ∧ x.inner = v := by
  constructor
  · intro h
    cases h with
    | parameter htext hparse => exact .inl (Tables.mem_readable.2 ⟨_, htext, hparse⟩)
    | @definition name text v x htext hparse hx hname =>
      have hreadable : (name, v) ∈ t₀.readable := Tables.mem_readable.2 ⟨text, htext, hparse⟩
      exact .inr ⟨x, Tables.definitions_subset hreadable x hx, hname, rfl⟩
  · rintro (hreadable | ⟨x, hx, hname, rfl⟩)
    · obtain ⟨text, htext, hparse⟩ := Tables.mem_readable.1 hreadable
      exact .parameter htext hparse
    · obtain ⟨p, hp, hx⟩ := List.mem_flatMap.1 hx
      obtain ⟨text, htext, hparse⟩ := Tables.mem_readable.1 hp
      exact .definition htext hparse hx hname

/-! ### Foundations -/

/-- Each symbol was registered with one of its values, after all that this value rests on. -/
def Founded (limit : Nat) (t₀ t : Tables) : Prop :=
  ∀ s ∈ t.order, ∃ v, ValueOf limit t₀ s v ∧
    ∀ r, v.RestsOn limit t₀ r → t.order.idxOf r < t.order.idxOf s

namespace Founded

theorem of_order (h : Founded limit t₀ t) (horder : t'.order = t.order) : Founded limit t₀ t' := by
  unfold Founded
  rw [horder]
  exact h

/-- A symbol may be registered if all that its value rests on is registered. -/
theorem register (h : Founded limit t₀ t) (howned : t.Owned) (hv : ValueOf limit t₀ s v)
    (hrests : ∀ r, v.RestsOn limit t₀ r → r ∈ t.order) (text : String) (expr : Expr)
    (type? : Option String) (slot : Slot) :
    Founded limit t₀ (t.register s text expr type? slot) := by
  cases hreg : t.isRegistered s with
  | true => rwa [Tables.register_of_registered hreg]
  | false =>
    rw [Tables.register_of_fresh hreg]
    have hfresh : s ∉ t.order := by
      rw [howned.order, ← Tables.isRegistered_iff, hreg]
      exact Bool.false_ne_true
    intro s' hs'
    rcases List.mem_append.1 hs' with hs' | hs'
    · -- an older symbol and what is before it keep their places
      obtain ⟨v', hv', hbefore⟩ := h s' hs'
      refine ⟨v', hv', fun r hr => ?_⟩
      have hlt := hbefore r hr
      have hr : r ∈ t.order :=
        List.idxOf_lt_length_iff.1 (Nat.lt_trans hlt (List.idxOf_lt_length_iff.2 hs'))
      rwa [List.idxOf_append_of_mem hr, List.idxOf_append_of_mem hs']
    · obtain rfl := List.mem_singleton.1 hs'
      refine ⟨v, hv, fun r hr => ?_⟩
      rw [List.idxOf_append_of_mem (hrests r hr), List.idxOf_append_of_notMem hfresh]
      exact Nat.lt_of_lt_of_le (List.idxOf_lt_length_iff.2 (hrests r hr)) (Nat.le_add_right ..)

end Founded

/-- The parameter that a value refers to is registered, unless it leads back to itself. -/
def Value.Ready (limit : Nat) (t₀ t : Tables) (v : Value) : Prop :=
  ∀ r, v.referent? = some r → r ∈ t₀.parameters → ¬TransGen (Refers limit t₀) r r → r ∈ t.order

/-- What a value rests on is registered once it has been bound. -/
theorem Value.RestsOn.mem_order (h : v.RestsOn limit t₀ r) (howned : t.Owned)
    (hready : v.Ready limit t₀ t) : r ∈ (v.bind d t).2.order := by
  rcases h with hdefined | ⟨hreferent, hin, hcircle⟩
  · rw [(howned.bind v).1.order, ← Tables.isRegistered_iff]
    exact Value.isRegistered_bind.2 (.inl hdefined)
  · exact (Extends.bind v t).order.subset (hready r hreferent hin hcircle)

namespace Founded

/-- **Binding a value keeps foundations**, if what it refers to is registered. -/
theorem bind (h : Founded limit t₀ t) (howned : t.Owned)
    (hvalues : ∀ x ∈ v.definitions, ValueOf limit t₀ x.name x.inner)
    (hready : v.Ready limit t₀ t) : Founded limit t₀ (v.bind d t).2 := by
  induction v generalizing t with
  | atom text => exact h
  | reference symbol text => exact h
  | element base index type fields ih =>
    have helement : Founded limit t₀
        (Value.bindElement d (base.bind d t).1 index type (base.bind d t).2).2 := by
      refine of_order (ih h howned hvalues hready) ?_
      obtain ⟨e, types, heq⟩ :=
        Value.bindElement_eq d (base.bind d t).1 index type (base.bind d t).2
      rw [heq, Value.elementOver]
      cases (base.bind d t).1.slot <;> rfl
    simp only [Value.bind]
    split <;> exact helement
  | region inner fields ih =>
    simp only [Value.bind]
    split <;> exact ih h howned hvalues hready
  | definition name type inner source ih =>
    have hinner := ih h howned (fun x hx => hvalues x (List.mem_cons_of_mem _ hx)) hready
    exact hinner.register (howned.bind inner).1 (hvalues _ List.mem_cons_self)
      (fun r hr => hr.mem_order howned hready) _ _ _ _

/-- **A turn keeps foundations.** -/
theorem turn (h : Founded limit t₀ t) (howned : t.Owned) (hturn : Turn d limit t₀ t t') :
    Founded limit t₀ t' := by
  obtain ⟨htext, hparse, hreferent⟩ := hturn
  rename_i name text v
  have hready : v.Ready limit t₀ t := by
    intro r hr hin hcircle
    rw [howned.order, ← Tables.isRegistered_iff]
    -- a referent that still waits for this parameter leads back to itself
    rcases hreferent r hr with hreg | hnot | hwaits
    · exact hreg
    · exact absurd hin hnot
    · exact absurd (.tail' hwaits ⟨text, v, htext, hparse, hr⟩) hcircle
  have hbound : Founded limit t₀ (v.bind d t).2 :=
    h.bind howned (fun x hx => .definition htext hparse hx rfl) hready
  exact hbound.register (howned.bind v).1 (.parameter htext hparse)
    (fun r hr => hr.mem_order howned hready) _ _ _ _

theorem turns (h : Founded limit t₀ t) (howned : t.Owned) (hturns : Turns d limit t₀ t t') :
    Founded limit t₀ t' ∧ t'.Owned := by
  induction hturns with
  | refl => exact ⟨h, howned⟩
  | tail _ hturn ih =>
    refine ⟨ih.1.turn ih.2 hturn, ?_⟩
    obtain ⟨-, -, -⟩ := hturn
    exact ih.2.move (.parameter _ _ _ _)

end Founded

namespace Declarations

/-- **A symbol is registered after all that it builds on**, directly or by way of others. -/
theorem idxOf_lt_of_buildsOn {c : Case} (hok : d.resolveParameters (c.intake d) = (.ok (), t))
    (hs : s ∈ t.order) (h : TransGen (BuildsOn Value.defaultLimit (c.intake d)) s r) :
    t.order.idxOf r < t.order.idxOf s := by
  have hempty : Founded Value.defaultLimit (c.intake d) (c.intake d) := nofun
  have hfounded := (hempty.turns (.intake d c) (turns_of_resolveParameters hok)).1
  have hstep {s r : String} (hs : s ∈ t.order)
      (h : BuildsOn Value.defaultLimit (c.intake d) s r) : t.order.idxOf r < t.order.idxOf s := by
    obtain ⟨v, hv, hbefore⟩ := hfounded s hs
    exact hbefore r (h v hv)
  induction h with
  | single hsr => exact hstep hs hsr
  | tail _ hqr ih =>
    exact Nat.lt_trans (hstep (List.idxOf_lt_length_iff.1
      (Nat.lt_trans ih (List.idxOf_lt_length_iff.2 hs))) hqr) ih

end Declarations

end TestSynth
