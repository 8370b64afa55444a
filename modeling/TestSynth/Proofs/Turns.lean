import TestSynth.Proofs.Resolution
import TestSynth.Proofs.Denotation

/-!
# Turns

A resolution that succeeds is a sequence of turns: in each, the value of one parameter is bound and
registered.  When a parameter has its turn, the symbol that its value refers to had it before, is no
parameter, or waits for it in a circle of references.

* `Declarations.turns_of_resolveParameters` : all parameters are resolved by turns.
* `Value.isRegistered_bind` : besides its parameter, a turn registers the symbols that are defined
  inside its value.
-/

namespace TestSynth

variable {d : Declarations} {limit : Nat}

/-! ### What is registered -/

/-- **What a value registers are the symbols that are defined inside it.** -/
theorem Value.isRegistered_bind {v : Value} {t : Tables} {s : String} :
    (v.bind d t).2.isRegistered s = true ↔
      (∃ x ∈ v.definitions, x.name = s) ∨ t.isRegistered s = true := by
  induction v generalizing t with
  | atom text => simp [bind, definitions]
  | reference symbol text => simp [bind, definitions]
  | element base index type fields ih =>
    have helement (b : Bound) (t : Tables) :
        (bindElement d b index type t).2.isRegistered s = t.isRegistered s := by
      obtain ⟨e, types, h⟩ := bindElement_eq d b index type t
      rw [h, elementOver]
      cases b.slot <;> rfl
    simp only [bind]
    split <;> rw [helement, ih, definitions]
  | region inner fields ih =>
    simp only [bind]
    split <;> exact ih
  | definition name type inner source ih =>
    simp only [bind, definitions, List.mem_cons, exists_eq_or_imp]
    rw [Tables.isRegistered_register_iff, ih, or_assoc, eq_comm]

/-! ### Turns -/

/-- The value of the parameter `s` refers to `s'`. -/
def Refers (limit : Nat) (t : Tables) (s s' : String) : Prop :=
  ∃ text v, t.parameters[s]? = some text ∧ Value.parse limit text = .ok v ∧ v.referent? = some s'

/-- One of the parameters of `t₀` is bound and registered. -/
inductive Turn (d : Declarations) (limit : Nat) (t₀ : Tables) : Tables → Tables → Prop
  | parameter {name text : String} {v : Value} {t : Tables}
    (htext : t₀.parameters[name]? = some text)
    (hparse : Value.parse limit text = .ok v)
    (hreferent : ∀ symbol ∈ v.referent?, t.isRegistered symbol = true ∨ symbol ∉ t₀.parameters ∨
      Relation.ReflTransGen (Refers limit t₀) symbol name) :
    Turn d limit t₀ t (Declarations.registerParameter name text (v.bind d t).1 (v.bind d t).2)

/-- Parameters are bound and registered, one after the other. -/
def Turns (d : Declarations) (limit : Nat) (t₀ : Tables) : Tables → Tables → Prop :=
  Relation.ReflTransGen (Turn d limit t₀)

theorem Turns.extends {t₀ t t' : Tables} (h : Turns d limit t₀ t t') : Extends t t' := by
  induction h with
  | refl => exact .refl t
  | tail _ hturn ih =>
    obtain ⟨-, -, -⟩ := hturn
    exact (ih.trans (.bind _ _)).trans (.register ..)

theorem isRegistered_turn {name text s : String} {v : Value} {t : Tables} :
    (Declarations.registerParameter name text (v.bind d t).1 (v.bind d t).2).isRegistered s = true ↔
      s = name ∨ (∃ x ∈ v.definitions, x.name = s) ∨ t.isRegistered s = true := by
  rw [Declarations.registerParameter, Tables.isRegistered_register_iff, Value.isRegistered_bind]

namespace Tables

/-- What is still to be registered has the text that it had at the beginning. -/
def Untouched (t₀ t : Tables) : Prop :=
  ∀ s, t.isRegistered s = false → t.parameters[s]? = t₀.parameters[s]?

theorem Untouched.extends {t₀ t t' : Tables} (h : t₀.Untouched t) (hext : Extends t t') :
    t₀.Untouched t' := by
  intro s hs
  rw [hext.parameters_eq hs, h s]
  by_contra hreg
  rw [hext.isRegistered (by simpa using hreg)] at hs
  cases hs

end Tables

namespace Declarations

variable {t₀ t t' u : Tables} {name text symbol : String} {opened : List String}
  {reading : Except Value.Failure Value}

/-- A parameter was registered if its value was read and bound after its referent. -/
theorem registered_ok {resolve : String → Tables → Outcome Unit}
    (h : registered name text (d.bindReading resolve reading t) = (.ok (), t')) :
    ∃ v u, reading = .ok v ∧ follow resolve v t = (.ok (), u) ∧
      t' = registerParameter name text (v.bind d u).1 (v.bind d u).2 := by
  have hspec := d.bindReading_spec resolve reading t
  generalize d.bindReading resolve reading t = outcome at hspec h
  cases hspec with
  | nothing e => cases h
  | unresolved hread hfollow => cases h
  | partly e hfollow => cases h
  | wholly hfollow =>
    cases h
    exact ⟨_, _, rfl, hfollow, rfl⟩

/-- **The resolution of a symbol is a sequence of turns**, if it succeeds.  Whoever waits for the
symbol leads to it by references. -/
theorem Resolves.turns {outcome : Outcome Unit} (h : Resolves d limit opened name t outcome)
    (hopened : ∀ s ∈ opened, Relation.ReflTransGen (Refers limit t₀) s name)
    (huntouched : t₀.Untouched t) (hok : outcome = (.ok (), t')) :
    Turns d limit t₀ t t' ∧
      (t'.isRegistered name = true ∨ name ∉ t₀.parameters ∨ name ∈ opened) := by
  induction h generalizing t' with
  | @settled opened name t h =>
    cases hok
    refine ⟨.refl, ?_⟩
    rcases h with hreg | hin | hnot
    · exact .inl hreg
    · exact .inr (.inr hin)
    · by_cases hreg : t.isRegistered name = true
      · exact .inl hreg
      · refine .inr (.inl fun hin => hnot ?_)
        rw [Std.ExtTreeMap.mem_iff_isSome_getElem?] at hin ⊢
        rwa [huntouched name (by simpa using hreg)]
  | @closed opened name text t hreg _ htext hclosed =>
    obtain ⟨v, u, hparse, hfollow, rfl⟩ := registered_ok hok
    have hnone : v.referent? = none := by
      rw [hparse] at hclosed
      exact hclosed
    rw [follow, hnone] at hfollow
    cases hfollow
    rw [huntouched name hreg] at htext
    exact ⟨.single (.parameter htext hparse fun s hs => by rw [hnone] at hs; cases hs),
      .inl (Tables.isRegistered_register ..)⟩
  | @follows opened name text symbol t inner hreg _ htext hsymbol _ ih =>
    obtain ⟨v, u, hparse, hfollow, rfl⟩ := registered_ok hok
    have hsome : v.referent? = some symbol := by
      rw [hparse] at hsymbol
      exact hsymbol
    rw [follow, hsome] at hfollow
    rw [huntouched name hreg] at htext
    have hrefers : Refers limit t₀ name symbol := ⟨text, v, htext, hparse, hsome⟩
    obtain ⟨hturns, hreferent⟩ := ih (fun s hs => by
      rcases List.mem_cons.1 hs with rfl | hs
      · exact .single hrefers
      · exact (hopened s hs).tail hrefers) huntouched hfollow
    refine ⟨hturns.tail (.parameter htext hparse fun s hs => ?_),
      .inl (Tables.isRegistered_register ..)⟩
    obtain rfl := Option.some.inj (hsome.symm.trans hs)
    -- a referent that is still being bound waits for this parameter
    refine hreferent.imp_right (Or.imp_right fun hin => ?_)
    rcases List.mem_cons.1 hin with rfl | hin
    · exact .refl
    · exact hopened _ hin

theorem ResolvesEach.turns {names : List String} {outcome : Outcome Unit}
    (h : ResolvesEach d names t outcome) (huntouched : t₀.Untouched t)
    (hok : outcome = (.ok (), t')) : Turns d Value.defaultLimit t₀ t t' := by
  induction h with
  | nil t =>
    cases hok
    exact .refl
  | failed h => cases hok
  | cons h _ ih =>
    have hfirst := (h.turns (fun s hs => by cases hs) huntouched rfl).1
    exact hfirst.trans (ih (huntouched.extends hfirst.extends) hok)

/-- **All parameters are resolved by turns**, if they can be resolved. -/
theorem turns_of_resolveParameters (h : d.resolveParameters t = (.ok (), t')) :
    Turns d Value.defaultLimit t t t' :=
  (resolvesEach_iff.2 rfl).turns (fun _ _ => rfl) h

end Declarations

end TestSynth
