import TestSynth.Proofs.Ownership
import Mathlib.Data.List.Nodup

/-!
# Resolution

`Declarations.Resolves` says how a symbol is resolved without any measure: whoever binds a parameter
keeps it on a stack of `opened` parameters, and a reference back to one of them is not followed.
Nothing in these rules says that they ever come to an end.

* `Declarations.resolves_iff` : they do, always, and with one outcome: the one that is computed with
  the parameters still pending.
* `Declarations.resolveParameters_complete` : when all parameters of a case were resolved, all that
  is known of some symbol is known of every symbol, and nothing is left to resolve.
-/

namespace TestSynth

namespace Value

/-- The symbol that has to be resolved before a reading is bound. -/
def referred? (reading : Except Failure Value) : Option String :=
  (completed? reading).bind referent?

end Value

namespace Declarations

variable (d : Declarations)

/-! ### Resolution by rules -/

/-- The outcome of resolving a symbol while the values of the parameters in `opened` are bound. -/
inductive Resolves (limit : Nat) : (opened : List String) → String → Tables → Outcome Unit → Prop
  /-- There is nothing to do, or someone is already at it. -/
  | settled {opened : List String} {name : String} {t : Tables}
    (h : t.isRegistered name = true ∨ name ∈ opened ∨ name ∉ t.parameters) :
    Resolves limit opened name t (.ok (), t)
  /-- A value that refers to no symbol is bound as it is. -/
  | closed {opened : List String} {name text : String} {t : Tables}
    (hreg : t.isRegistered name = false) (hopened : name ∉ opened)
    (htext : t.parameters[name]? = some text)
    (hclosed : Value.referred? (Value.parse limit text) = none) :
    Resolves limit opened name t
      (registered name text
        (d.bindReading (fun _ t => (.ok (), t)) (Value.parse limit text) t))
  /-- A value that refers to a symbol is bound after that symbol was resolved. -/
  | follows {opened : List String} {name text symbol : String} {t : Tables} {inner : Outcome Unit}
    (hreg : t.isRegistered name = false) (hopened : name ∉ opened)
    (htext : t.parameters[name]? = some text)
    (hsymbol : Value.referred? (Value.parse limit text) = some symbol)
    (hinner : Resolves limit (name :: opened) symbol t inner) :
    Resolves limit opened name t
      (registered name text (d.bindReading (fun _ _ => inner) (Value.parse limit text) t))

/-- The outcome of resolving some parameters one after the other. -/
inductive ResolvesEach : List String → Tables → Outcome Unit → Prop
  | nil (t : Tables) : ResolvesEach [] t (.ok (), t)
  | failed {name : String} {names : List String} {t t' : Tables} {e : ParseError}
    (h : Resolves d Value.defaultLimit [] name t (.error e, t')) :
    ResolvesEach (name :: names) t (.error e, t')
  | cons {name : String} {names : List String} {t t' : Tables} {outcome : Outcome Unit}
    (h : Resolves d Value.defaultLimit [] name t (.ok (), t'))
    (hnames : ResolvesEach names t' outcome) :
    ResolvesEach (name :: names) t outcome

variable {d}

theorem bindReading_of_closed {reading : Except Value.Failure Value} {t : Tables}
    (h : Value.referred? reading = none) (resolve : String → Tables → Outcome Unit) :
    d.bindReading resolve reading t = d.bindReading (fun _ t => (.ok (), t)) reading t := by
  refine d.bindReading_congr fun v hv => ?_
  have hnone : v.referent? = none := by rwa [Value.referred?, hv] at h
  rw [follow, follow, hnone]
  rfl

/-- A reading that refers to a symbol depends on the resolution of that symbol alone. -/
theorem bindReading_of_referred {reading : Except Value.Failure Value} {symbol : String}
    {t : Tables} (h : Value.referred? reading = some symbol)
    (resolve : String → Tables → Outcome Unit) :
    d.bindReading resolve reading t = d.bindReading (fun _ _ => resolve symbol t) reading t := by
  refine d.bindReading_congr fun v hv => ?_
  have hsome : v.referent? = some symbol := by rwa [Value.referred?, hv] at h
  rw [follow, follow, hsome]
  rfl

/-- **Every resolution comes to an end.**  The parameters that are not opened are the pending ones,
as far as they are not registered; so what is computed with the pending ones has a derivation. -/
theorem resolves_resolve {limit : Nat} {opened pending : List String} {t : Tables}
    (hpending : ∀ s ∈ t.parameters, t.isRegistered s = true ∨ s ∈ opened ∨ s ∈ pending)
    (hdisjoint : ∀ s ∈ opened, s ∉ pending) (hnodup : pending.Nodup) (name : String) :
    Resolves d limit opened name t (d.resolve limit pending name t) := by
  induction pending using pending_induction generalizing opened name with
  | step pending ih =>
    rcases d.resolve_cases limit pending name t with ⟨hsettled, h⟩ | ⟨text, hmem, hreg, htext, h⟩
    · rw [h]
      refine .settled ?_
      -- a parameter that is not pending is registered or opened
      by_cases hin : name ∈ t.parameters
      · rcases hpending name hin with hreg | hopened | hmem
        · exact .inl hreg
        · exact .inr (.inl hopened)
        · exact (hsettled hmem).imp_right .inr
      · exact .inr (.inr hin)
    · have hopened : name ∉ opened := fun hin => hdisjoint name hin hmem
      -- the parameter moves from the pending ones to the opened ones
      have hinner (symbol : String) :
          Resolves d limit (name :: opened) symbol t
            (d.resolve limit (pending.erase name) symbol t) := by
        refine ih name hmem ?_ ?_ (hnodup.erase name) symbol
        · intro s hs
          by_cases hname : s = name
          · exact .inr (.inl (hname ▸ List.mem_cons_self))
          · rcases hpending s hs with hreg | hin | hin
            · exact .inl hreg
            · exact .inr (.inl (List.mem_cons_of_mem _ hin))
            · exact .inr (.inr ((List.mem_erase_of_ne hname).2 hin))
        · intro s hs hin
          rcases List.mem_cons.1 hs with rfl | hs
          · exact (hnodup.mem_erase_iff.1 hin).1 rfl
          · exact hdisjoint s hs (List.mem_of_mem_erase hin)
      rw [h]
      cases hreferred : Value.referred? (Value.parse limit text) with
      | none =>
        rw [bindReading_of_closed hreferred]
        exact .closed hreg hopened htext hreferred
      | some symbol =>
        rw [bindReading_of_referred hreferred]
        exact .follows hreg hopened htext hreferred (hinner symbol)

theorem not_settled {opened : List String} {name text : String} {t : Tables}
    (hreg : t.isRegistered name = false) (hopened : name ∉ opened)
    (htext : t.parameters[name]? = some text) :
    ¬(t.isRegistered name = true ∨ name ∈ opened ∨ name ∉ t.parameters) := by
  rintro (h | h | h)
  · rw [hreg] at h
    cases h
  · exact hopened h
  · exact h (Table.mem_of_getElem? htext)

/-- No symbol is resolved in two ways. -/
theorem Resolves.unique {limit : Nat} {opened : List String} {name : String} {t : Tables}
    {outcome outcome' : Outcome Unit} (h : Resolves d limit opened name t outcome)
    (h' : Resolves d limit opened name t outcome') : outcome = outcome' := by
  -- the two derivations follow the same rule at every step
  induction h generalizing outcome' with
  | settled h =>
    cases h' with
    | settled _ => rfl
    | closed hreg hopened htext _ => exact absurd h (not_settled hreg hopened htext)
    | follows hreg hopened htext _ _ => exact absurd h (not_settled hreg hopened htext)
  | closed hreg hopened htext hclosed =>
    cases h' with
    | settled h => exact absurd h (not_settled hreg hopened htext)
    | closed _ _ htext' _ =>
      obtain rfl := Option.some.inj (htext.symm.trans htext')
      rfl
    | follows _ _ htext' hsymbol _ =>
      obtain rfl := Option.some.inj (htext.symm.trans htext')
      rw [hclosed] at hsymbol
      cases hsymbol
  | follows hreg hopened htext hsymbol _ ih =>
    cases h' with
    | settled h => exact absurd h (not_settled hreg hopened htext)
    | closed _ _ htext' hclosed =>
      obtain rfl := Option.some.inj (htext.symm.trans htext')
      rw [hclosed] at hsymbol
      cases hsymbol
    | follows _ _ htext' hsymbol' hinner =>
      obtain rfl := Option.some.inj (htext.symm.trans htext')
      obtain rfl := Option.some.inj (hsymbol.symm.trans hsymbol')
      rw [ih hinner]

/-- **A symbol has exactly one resolution**, and it is the one that is computed. -/
theorem resolves_iff {limit : Nat} {name : String} {t : Tables} {outcome : Outcome Unit} :
    Resolves d limit [] name t outcome ↔ outcome = d.resolve limit t.parameters.keys name t := by
  have hcomputed : Resolves d limit [] name t (d.resolve limit t.parameters.keys name t) :=
    resolves_resolve (fun s hs => .inr (.inr (Std.ExtTreeMap.mem_keys.2 hs)))
      (fun s hs => by cases hs) Std.ExtTreeMap.nodup_keys name
  constructor
  · exact fun h => h.unique hcomputed
  · rintro rfl
    exact hcomputed

theorem resolvesEach_iff {names : List String} {t : Tables} {outcome : Outcome Unit} :
    ResolvesEach d names t outcome ↔ outcome = d.resolveEach names t := by
  constructor
  · intro h
    induction h with
    | nil t => rfl
    | failed h => rw [resolveEach, ← resolves_iff.1 h]
    | cons h _ ih => rw [resolveEach, ← resolves_iff.1 h, ih]
  · rintro rfl
    induction names generalizing t with
    | nil => exact .nil t
    | cons name names ih =>
      rw [resolveEach]
      split
      · next hresolve => exact .failed (resolves_iff.2 hresolve.symm)
      · next hresolve => exact .cons (resolves_iff.2 hresolve.symm) ih

/-! ### Completeness -/

theorem isRegistered_of_resolve {limit : Nat} {pending : List String} {name : String}
    {t t' : Tables} (h : d.resolve limit pending name t = (.ok (), t')) (hmem : name ∈ pending)
    (hin : name ∈ t.parameters) : t'.isRegistered name = true := by
  rcases d.resolve_cases limit pending name t with ⟨hsettled, heq⟩ | ⟨text, -, -, -, heq⟩
  · rw [h] at heq
    cases heq
    exact (hsettled hmem).resolve_right fun hnot => hnot hin
  · rw [h] at heq
    cases hbind : d.bindReading (d.resolve limit (pending.erase name)) (Value.parse limit text) t
      with
    | mk outcome u =>
      rw [hbind] at heq
      cases outcome with
      | error e => cases heq
      | ok b =>
        cases heq
        exact u.isRegistered_register ..

theorem isRegistered_of_resolveEach {names : List String} {t t' : Tables}
    (h : d.resolveEach names t = (.ok (), t')) {s : String} (hs : s ∈ names)
    (hin : s ∈ t.parameters) : t'.isRegistered s = true := by
  induction names generalizing t with
  | nil => cases hs
  | cons name names ih =>
    rw [resolveEach] at h
    split at h
    · cases h
    · next u hresolve =>
      have hext : Extends t u := by
        have := (runs_resolve (d := d) Value.defaultLimit t.parameters.keys name t).extends
        rwa [hresolve] at this
      rcases List.mem_cons.1 hs with rfl | hs
      · -- registered by the first resolution, and still after the others
        have hreg := isRegistered_of_resolve hresolve (Std.ExtTreeMap.mem_keys.2 hin) hin
        have := (runs_resolveEach (d := d) names u).extends
        rw [h] at this
        exact this.isRegistered hreg
      · obtain ⟨text, htext⟩ := Table.exists_of_mem hin
        exact ih h hs (Table.mem_of_getElem? (hext.parameters s text htext))

theorem resolveEach_of_registered {names : List String} {t : Tables}
    (h : ∀ s ∈ names, t.isRegistered s = true) : d.resolveEach names t = (.ok (), t) := by
  induction names with
  | nil => rfl
  | cons name names ih =>
    rw [resolveEach, resolve_of_settled d (.inl (h name List.mem_cons_self))]
    exact ih fun s hs => h s (List.mem_cons_of_mem name hs)

/-- All that is known of some symbol is known of every symbol. -/
structure Complete (t : Tables) : Prop where
  exprs : ∀ s, s ∈ t.parameters ↔ s ∈ t.exprs
  slots : ∀ s, s ∈ t.parameters ↔ s ∈ t.slots
  order : ∀ s, s ∈ t.parameters ↔ s ∈ t.order
  nodup : t.order.Nodup

theorem Complete.of_registered {t : Tables} (howned : t.Owned)
    (h : ∀ s ∈ t.parameters, t.isRegistered s = true) : Complete t := by
  have hslots (s : String) : s ∈ t.parameters ↔ s ∈ t.slots :=
    ⟨fun hs => Tables.isRegistered_iff.1 (h s hs), howned.parameters s⟩
  exact ⟨fun s => (hslots s).trans (howned.exprs s).symm, hslots,
    fun s => (hslots s).trans (howned.order s).symm, howned.nodup⟩

theorem isRegistered_of_resolveParameters {t t' : Tables}
    (h : d.resolveParameters t = (.ok (), t')) {s : String} (hs : s ∈ t'.parameters) :
    t'.isRegistered s = true := by
  have hext := (runs_of_resolveParameters h).extends
  -- what became a parameter on the way was registered at once
  rcases hext.new s hs with hin | hreg
  · exact isRegistered_of_resolveEach h (mem_schedule.2 hin) hin
  · exact hreg

/-- **Resolution terminates and is complete.**  The parameters of a case, with references in circles
or without, have exactly one resolution.  If it succeeds, all that is known of some symbol is known
of every symbol, and resolving the parameters again changes nothing. -/
theorem resolveParameters_complete (d : Declarations) (c : Case) :
    (∀ outcome, ResolvesEach d (schedule (c.intake d)) (c.intake d) outcome ↔
      outcome = d.resolveParameters (c.intake d)) ∧
    ∀ t, d.resolveParameters (c.intake d) = (.ok (), t) →
      Complete t ∧ d.resolveParameters t = (.ok (), t) := by
  refine ⟨fun outcome => resolvesEach_iff, fun t h => ?_⟩
  have hreg (s : String) (hs : s ∈ t.parameters) : t.isRegistered s = true :=
    isRegistered_of_resolveParameters h hs
  exact ⟨.of_registered (.of_resolveParameters h) hreg,
    resolveEach_of_registered fun s hs => hreg s (mem_schedule.1 hs)⟩

/-- Two parameters that refer to each other, and a buffer that one of them stands for. -/
def circularCase : Case where
  parameters := .ofList [("reg_$0", "reg_$1"), ("reg_$1", "reg_$0"),
    ("reg_$2", "Element\x7breg_$3<int *,reg_$0>,1,int\x7d")]

theorem resolveParameters_circularCase :
    ∃ t, resolveParameters {} (circularCase.intake {}) = (.ok (), t) ∧
      t.order = ["reg_$1", "reg_$0", "reg_$3", "reg_$2"] ∧
      Complete t ∧ resolveParameters {} t = (.ok (), t) := by
  have hfst : (resolveParameters {} (circularCase.intake {})).1 = .ok () := by decide +kernel
  have hok : resolveParameters {} (circularCase.intake {}) =
      (.ok (), (resolveParameters {} (circularCase.intake {})).2) := Prod.ext hfst rfl
  exact ⟨_, hok, by decide +kernel, (resolveParameters_complete {} circularCase).2 _ hok⟩

end Declarations

end TestSynth
