import TestSynth.Proofs.Narrowing

/-!
# Resolution in any order

If no value of a case depends on those that were bound before it, the order does not matter in which
its parameters are resolved: each resolution keeps the equations of settled tables, and these have
one solution.  What else the tables say, sizes and narrowed types, is gathered from the values of
the registered parameters, whatever their order.

* `Tables.Registering.gathered_iff` : what a parameter adds.
* `Tables.Resolved.resolves` : a resolution keeps the equations, or meets a parameter that cannot be
  read.
* `Tables.Settled.agreeOn` : the equations have one solution.
* `Declarations.resolveEach_orderFree` : parameters are resolved to the same end in any order.
-/

namespace TestSynth

namespace Tables

variable {d : Declarations} {t₀ g g' t t' : Tables} {N : String × String → Prop}
  {name text : String} {v : Value}

/-! ### One parameter -/

/-- What the registered parameters contribute. -/
def Gathered {α : Type} (f : Tables → Value → List α) (t₀ g : Tables) (x : α) : Prop :=
  ∃ p ∈ t₀.readable, g.isRegistered p.1 = true ∧ x ∈ f g p.2

/-- What depends only on the slots and types of the symbols of a value. -/
def IsLocal {α : Type} (f : Tables → Value → List α) : Prop :=
  ∀ t t' v, (∀ s ∈ v.symbols, AgreeOn t t' s) → f t' v = f t v

theorem isLocal_touched (d : Declarations) : IsLocal fun t v => v.touched d t :=
  fun _ _ _ h => Value.touched_congr h

theorem isLocal_narrowings (d : Declarations) : IsLocal fun t v => v.narrowings d t :=
  fun _ _ _ h => Value.narrowings_congr h

/-- The tables `g'` after the parameter `p` was registered. -/
structure Registering (d : Declarations) (t₀ g g' : Tables) (p : String × Value) : Prop where
  settling : Settling d t₀ g p.2
  settled : Settled d t₀ g'
  keeps : Keeps (p.2.settle d g) g'
  self : g'.isRegistered p.1 = true
  new : ∀ q ∈ t₀.readable, g'.isRegistered q.1 = true → g.isRegistered q.1 = true ∨ q = p

theorem Settled.registering (hfree : OrderFree d t₀) (h : Settled d t₀ g) {p : String × Value}
    (hp : p ∈ t₀.readable)
    (hreferent : ∀ s ∈ p.2.referent?, g.isRegistered s = true ∨ t₀.Foreign s) (text : String) :
    Registering d t₀ g (Declarations.registerParameter p.1 text (p.2.denote d (p.2.settle d g))
      (p.2.settle d g)) p := by
  have hdefinitions := definitions_subset hp
  have hsettling := h.settle hfree hdefinitions hreferent
  refine ⟨hsettling, hsettling.settled.registerParameter hfree hp hsettling.ready text,
    .register .., isRegistered_register .., fun q hq hreg => ?_⟩
  rcases isRegistered_register_iff.1 hreg with hname | hreg
  · exact .inr (readable_unique hq hp hname)
  · rcases hsettling.new q.1 hreg with hold | ⟨x, hx, hname⟩
    · exact .inl hold
    · exact absurd (hname ▸ mem_parameters_of_readable hq) (hfree.apart x (hdefinitions x hx))

/-- A parameter adds what its value contributes. -/
theorem Registering.gathered_iff {p : String × Value} (h : Registering d t₀ g g' p)
    (hg : Settled d t₀ g) (hp : p ∈ t₀.readable) {α : Type} {f : Tables → Value → List α}
    (hf : IsLocal f) (x : α) :
    Gathered f t₀ g' x ↔ Gathered f t₀ g x ∨ x ∈ f (p.2.settle d g) p.2 := by
  have hkeeps := h.settling.keeps.trans h.keeps
  have hself : f g' p.2 = f (p.2.settle d g) p.2 :=
    hf _ _ _ (h.settling.settled.agree h.settled h.keeps h.settling.ready)
  have hold {q : String × Value} (hq : q ∈ t₀.readable) (hreg : g.isRegistered q.1 = true) :
      f g' q.2 = f g q.2 :=
    hf _ _ _ (hg.agree h.settled hkeeps (hg.parameter q hq hreg).1.ready)
  constructor
  · rintro ⟨q, hq, hreg, hx⟩
    rcases h.new q hq hreg with hreg | rfl
    · exact .inl ⟨q, hq, hreg, by rwa [← hold hq hreg]⟩
    · exact .inr (by rwa [← hself])
  · rintro (⟨q, hq, hreg, hx⟩ | hx)
    · exact ⟨q, hq, hkeeps.registered _ hreg, by rwa [hold hq hreg]⟩
    · exact ⟨p, hp, h.self, by rwa [hself]⟩

/-- A parameter takes no type that could have been narrowed. -/
theorem Shadows.registerParameter (hfree : OrderFree d t₀) (h : Shadows d t₀ g t N)
    (hsettled : Settled d t₀ g) {p : String × Value} (hp : p ∈ t₀.readable) (text : String) :
    Shadows d t₀ (Declarations.registerParameter p.1 text (p.2.denote d g) g)
      (Declarations.registerParameter p.1 text (p.2.denote d g) t) N := by
  rw [Declarations.registerParameter, Declarations.registerParameter]
  cases hfresh : g.isRegistered p.1 with
  | true => rwa [register_of_registered hfresh, register_of_registered (by rwa [h.isRegistered_eq])]
  | false =>
    have hname : ¬t₀.Foreign p.1 := fun hforeign => hforeign.1 (mem_parameters_of_readable hp)
    have hcontains : t.types.contains p.1 = g.types.contains p.1 := by
      rw [Std.ExtTreeMap.contains_eq_isSome_getElem?, Std.ExtTreeMap.contains_eq_isSome_getElem?,
        h.declared p.1 (h.ne_of_fresh hfresh hname)]
    have htype : (if t.types.contains p.1 then none
          else (p.2.denote d g).symbol.bind fun symbol => t.types[symbol]?) =
        if g.types.contains p.1 then none
        else (p.2.denote d g).symbol.bind fun symbol => g.types[symbol]? := by
      rw [hcontains]
      split
      · rfl
      · next hnot =>
        rw [Std.ExtTreeMap.contains_eq_isSome_getElem?, (hsettled.unregistered p.1 hfresh).2,
          ← Std.ExtTreeMap.mem_iff_isSome_getElem?] at hnot
        rw [Value.symbol_denote]
        cases hs : p.2.symbol? with
        | none => rfl
        | some s =>
          -- what has the value of a void symbol has a type of its own
          refine h.declared s fun n hn => ?_
          rintro rfl
          exact hnot (hfree.voidTaken n.1 (h.void n hn) p hp hs)
    rw [htype]
    exact h.register hname text _ _ _

/-! ### Resolution -/

/-- The tables `t` after some of the parameters of `t₀` were resolved, beside the settled ones. -/
structure Resolved (d : Declarations) (t₀ g t : Tables) : Prop where
  settled : Settled d t₀ g
  /-- The types that are narrowed are those that the registered parameters narrow. -/
  shadows : Shadows d t₀ g t (Gathered (fun t v => v.narrowings d t) t₀ g)
  /-- What is still to be registered are the parameters of `t₀`. -/
  texts : ∀ s, t.isRegistered s = false → t.parameters[s]? = t₀.parameters[s]?
  /-- The sizes are what the registered parameters ask for. -/
  sizes : ∃ accesses, t.Records accesses ∧
    ∀ a, a ∈ accesses ↔ Gathered (fun t v => v.touched d t) t₀ g a

namespace Resolved

/-- The value of a parameter looks at nothing that another parameter narrowed. -/
theorem unseen (hfree : OrderFree d t₀) (h : Resolved d t₀ g t) {p : String × Value}
    (hp : p ∈ t₀.readable) (hfresh : t.isRegistered p.1 = false) :
    Unseen d t₀ (Gathered (fun t v => v.narrowings d t) t₀ g) p.2 where
  looks s hs n hn := by
    rintro rfl
    obtain ⟨q, hq, hreg, hnq⟩ := id hn
    obtain rfl := (hfree.voidOnce n.1 (h.shadows.void n hn) p hp).2 q hq hs
      (Value.mem_looks_of_narrowings hnq)
    rw [← h.shadows.isRegistered_eq, hfresh] at hreg
    cases hreg
  once s hs := (hfree.voidOnce s hs p hp).1

theorem registerParameter (hfree : OrderFree d t₀) (h : Resolved d t₀ g t) {p : String × Value}
    (hp : p ∈ t₀.readable) (hfresh : t.isRegistered p.1 = false)
    (hreferent : ∀ s ∈ p.2.referent?, g.isRegistered s = true ∨ t₀.Foreign s) (text : String) :
    ∃ g', Resolved d t₀ g' (Declarations.registerParameter p.1 text (p.2.bind d t).1
        (p.2.bind d t).2) ∧ Registering d t₀ g g' p := by
  have hbind := h.shadows.bind hfree h.settled (definitions_subset hp) hreferent
    (hfree.voidGlobal p hp) (h.unseen hfree hp hfresh)
  have hregistering := h.settled.registering hfree hp hreferent text
  have hextends : Extends t (Declarations.registerParameter p.1 text (p.2.bind d t).1
      (p.2.bind d t).2) := (Extends.bind (d := d) p.2 t).trans (.register ..)
  obtain ⟨accesses, hrecords, hmem⟩ := h.sizes
  refine ⟨_, ⟨hregistering.settled, ?_, ?_, accesses ++ p.2.accesses d t, ?_, ?_⟩, hregistering⟩
  · rw [hbind.denotes]
    refine (hbind.shadows.registerParameter hfree hregistering.settling.settled hp text).congr
      fun n => ?_
    exact hregistering.gathered_iff h.settled hp (isLocal_narrowings d) n
  · intro s hs
    rw [hextends.parameters_eq hs, h.texts s]
    by_contra hreg
    rw [hextends.isRegistered (by simpa using hreg)] at hs
    cases hs
  · exact Records.register (hrecords.bind p.2) p.1 text _ _ _
  · intro a
    rw [List.mem_append, hmem, hbind.accesses,
      hregistering.gathered_iff h.settled hp (isLocal_touched d)]

theorem readable_of_parse (h : Resolved d t₀ g t) (hfresh : t.isRegistered name = false)
    (htext : t.parameters[name]? = some text)
    (hparse : Value.parse Value.defaultLimit text = .ok v) : (name, v) ∈ t₀.readable :=
  mem_readable.2 ⟨text, by rw [← h.texts name hfresh, htext], hparse⟩

theorem not_readable (h : Resolved d t₀ g t) (hfresh : t.isRegistered name = false)
    (htext : t.parameters[name]? = some text) {failure : Value.Failure}
    (hparse : Value.parse Value.defaultLimit text = .error failure) :
    ¬∀ s ∈ t₀.parameters, ∃ v, (s, v) ∈ t₀.readable := by
  intro hall
  rw [h.texts name hfresh] at htext
  obtain ⟨v, hv⟩ := hall name (Table.mem_of_getElem? htext)
  obtain ⟨text', htext', hparse'⟩ := mem_readable.1 hv
  rw [htext] at htext'
  cases htext'
  rw [hparse] at hparse'
  cases hparse'

end Resolved

/-- What is registered in `g'` beyond `g`: the parameter `name` and others that rank below it. -/
structure Advances (t₀ g g' : Tables) (rank : String → Nat) (name : String) : Prop where
  keeps : Keeps g g'
  self : name ∈ t₀.parameters → g'.isRegistered name = true
  new : ∀ q ∈ t₀.readable, g'.isRegistered q.1 = true →
    g.isRegistered q.1 = true ∨ rank q.1 ≤ rank name

theorem Registering.advances {p : String × Value} (h : Registering d t₀ g g' p)
    (rank : String → Nat) : Advances t₀ g g' rank p.1 where
  keeps := h.settling.keeps.trans h.keeps
  self _ := h.self
  new q hq hreg := by
    rcases h.new q hq hreg with hreg | rfl
    · exact .inl hreg
    · exact .inr (Nat.le_refl _)

/-- What comes of a resolution: a parameter that cannot be read, or resolved tables. -/
inductive Resolves (d : Declarations) (t₀ : Tables) (P : Tables → Prop) : Outcome Unit → Prop
  | error (e : ParseError) (t' : Tables) (h : ¬∀ s ∈ t₀.parameters, ∃ v, (s, v) ∈ t₀.readable) :
    Resolves d t₀ P (.error e, t')
  | ok {g' t' : Tables} (h : Resolved d t₀ g' t') (hP : P g') : Resolves d t₀ P (.ok (), t')

/-- What a value refers to is resolved before it, or foreign. -/
theorem Resolved.follow {rank : String → Nat} {opened : List String}
    {symbol : String} {inner : Outcome Unit}
    (hrank : symbol ∈ t₀.parameters → rank symbol < rank name)
    (hforeign : symbol ∉ t₀.parameters → t₀.Foreign symbol)
    (hinner : Declarations.Resolves d Value.defaultLimit (name :: opened) symbol t inner)
    (ih : symbol ∈ t₀.parameters → Resolves d t₀ (Advances t₀ g · rank symbol) inner)
    (h : Resolved d t₀ g t) :
    Resolves d t₀ (fun g' => Keeps g g' ∧ (g'.isRegistered symbol = true ∨ t₀.Foreign symbol) ∧
      ∀ q ∈ t₀.readable, g'.isRegistered q.1 = true → g.isRegistered q.1 = true ∨
        rank q.1 < rank name) inner := by
  by_cases hin : symbol ∈ t₀.parameters
  · cases ih hin with
    | error e t' hbad => exact .error e t' hbad
    | ok hresolved hadvances =>
      refine .ok hresolved ⟨hadvances.keeps, .inl (hadvances.self hin), fun q hq hreg => ?_⟩
      exact (hadvances.new q hq hreg).imp_right fun hle => Nat.lt_of_le_of_lt hle (hrank hin)
  · have hnone : t.parameters[symbol]? = none := by
      rw [h.texts symbol, Std.ExtTreeMap.getElem?_eq_none hin]
      rw [h.shadows.isRegistered_eq, h.settled.isRegistered_of_foreign (hforeign hin)]
    -- a foreign symbol is no parameter of either table, so nothing happens
    have hstay : Resolves d t₀ (fun g' => Keeps g g' ∧
        (g'.isRegistered symbol = true ∨ t₀.Foreign symbol) ∧
        ∀ q ∈ t₀.readable, g'.isRegistered q.1 = true → g.isRegistered q.1 = true ∨
          rank q.1 < rank name) (.ok (), t) :=
      .ok h ⟨.refl g, .inr (hforeign hin), fun q _ hreg => .inl hreg⟩
    cases hinner with
    | settled _ => exact hstay
    | closed _ _ htext' _ =>
      rw [hnone] at htext'
      cases htext'
    | follows _ _ htext' _ _ =>
      rw [hnone] at htext'
      cases htext'

/-- **A resolution keeps to the equations**, or it meets a parameter that cannot be read. -/
theorem Resolved.resolves (hfree : OrderFree d t₀) {rank : String → Nat}
    (hrank : ∀ p ∈ t₀.readable, ∀ symbol ∈ p.2.referent?,
      symbol ∈ t₀.parameters → rank symbol < rank p.1)
    {opened : List String} {outcome : Outcome Unit}
    (hresolves : Declarations.Resolves d Value.defaultLimit opened name t outcome)
    (hopened : ∀ s ∈ opened, rank name < rank s) (h : Resolved d t₀ g t) :
    Resolves d t₀ (Advances t₀ g · rank name) outcome := by
  induction hresolves generalizing g with
  | @settled opened name t hsettled =>
    refine .ok h ⟨.refl g, fun hin => ?_, fun q _ hreg => .inl hreg⟩
    -- only what is being resolved could still be fresh, but that has a greater rank
    by_contra hfresh
    rw [← h.shadows.isRegistered_eq] at hfresh
    rcases hsettled with hreg | hmem | hnot
    · exact hfresh hreg
    · exact Nat.lt_irrefl _ (hopened name hmem)
    · refine hnot ?_
      rw [Std.ExtTreeMap.mem_iff_isSome_getElem?] at hin ⊢
      rwa [h.texts name (by simpa using hfresh)]
  | @closed opened name text t hfresh _ htext hclosed =>
    cases hparse : Value.parse Value.defaultLimit text with
    | error failure =>
      obtain ⟨e, t', heq⟩ := d.bindReading_error (fun _ t => (.ok (), t)) failure t
      rw [heq]
      exact .error e t' (h.not_readable hfresh htext hparse)
    | ok v =>
      have hnone : v.referent? = none := by rwa [hparse] at hclosed
      obtain ⟨g', hnext, hregistering⟩ := h.registerParameter hfree
        (h.readable_of_parse hfresh htext hparse) hfresh
        (fun s hs => by rw [hnone] at hs; cases hs) text
      rw [d.bindReading_ok, Declarations.follow, hnone]
      exact .ok hnext (hregistering.advances rank)
  | @follows opened name text symbol t inner hfresh _ htext hsymbol hinner ih =>
    cases hparse : Value.parse Value.defaultLimit text with
    | error failure =>
      obtain ⟨e, t', heq⟩ := d.bindReading_error (fun _ _ => inner) failure t
      rw [heq]
      exact .error e t' (h.not_readable hfresh htext hparse)
    | ok v =>
      have hsome : v.referent? = some symbol := by rwa [hparse] at hsymbol
      have hp := h.readable_of_parse hfresh htext hparse
      have hlt := hrank (name, v) hp symbol hsome
      have hopened' (hin : symbol ∈ t₀.parameters) :
          ∀ s ∈ name :: opened, rank symbol < rank s := by
        intro s hs
        rcases List.mem_cons.1 hs with rfl | hs
        · exact hlt hin
        · exact Nat.lt_trans (hlt hin) (hopened s hs)
      have hfollow := h.follow hlt (fun hin => ⟨hin, hfree.closed (name, v) hp symbol hsome⟩) hinner
        fun hin => ih (hopened' hin) h
      rw [d.bindReading_ok, Declarations.follow, hsome]
      cases hfollow with
      | error e t' hbad => exact .error e t' hbad
      | @ok g' t' hresolved hP =>
        obtain ⟨hkeeps, hreferent, hnew⟩ := hP
        -- on the way only symbols of a smaller rank were registered
        have hfresh' : t'.isRegistered name = false := by
          by_contra hreg
          rw [hresolved.shadows.isRegistered_eq, Bool.not_eq_false] at hreg
          rcases hnew (name, v) hp hreg with hold | hless
          · rw [← h.shadows.isRegistered_eq, hfresh] at hold
            cases hold
          · exact Nat.lt_irrefl _ hless
        obtain ⟨g'', hnext, hregistering⟩ := hresolved.registerParameter hfree hp hfresh'
          (fun s hs => by rw [hsome] at hs; cases hs; exact hreferent) text
        have hadvances := hregistering.advances rank
        refine .ok hnext ⟨hkeeps.trans hadvances.keeps, hadvances.self, fun q hq hreg => ?_⟩
        rcases hadvances.new q hq hreg with hreg | hle
        · exact (hnew q hq hreg).imp_right Nat.le_of_lt
        · exact .inr hle

theorem Resolved.resolveEach (hfree : OrderFree d t₀) {rank : String → Nat}
    (hrank : ∀ p ∈ t₀.readable, ∀ symbol ∈ p.2.referent?,
      symbol ∈ t₀.parameters → rank symbol < rank p.1)
    (h : Resolved d t₀ g t) (names : List String) :
    Resolves d t₀ (fun g' => Keeps g g' ∧
      ∀ s ∈ names, s ∈ t₀.parameters → g'.isRegistered s = true) (d.resolveEach names t) := by
  induction names generalizing g t with
  | nil => exact .ok h ⟨.refl g, nofun⟩
  | cons name names ih =>
    have hname := @resolves d t₀ g t name hfree rank hrank [] _ (Declarations.resolves_iff.2 rfl)
      nofun h
    rw [Declarations.resolveEach]
    generalize d.resolve Value.defaultLimit t.parameters.keys name t = outcome at hname
    cases hname with
    | error e t' hbad => exact .error e t' hbad
    | @ok g' t' hresolved hadvances =>
      have hrest := ih hresolved
      dsimp only
      generalize d.resolveEach names t' = rest at hrest
      cases hrest with
      | error e t'' hbad => exact .error e t'' hbad
      | ok hresolved' hP =>
        refine .ok hresolved' ⟨hadvances.keeps.trans hP.1, fun s hs hin => ?_⟩
        rcases List.mem_cons.1 hs with rfl | hs
        · exact hP.1.registered s (hadvances.self hin)
        · exact hP.2 s hs hin

/-! ### Uniqueness -/

namespace Settled

variable (hfree : OrderFree d t₀) (h : Settled d t₀ t) (h' : Settled d t₀ t')
  (hall : ∀ s ∈ t₀.parameters, t.isRegistered s = true)
  (hall' : ∀ s ∈ t₀.parameters, t'.isRegistered s = true)

include hall in
theorem isRegistered_definition (h : Settled d t₀ t) {x : Definition} (hx : x ∈ t₀.definitions) :
    t.isRegistered x.name = true := by
  obtain ⟨p, hp, hxp⟩ := List.mem_flatMap.1 hx
  have hready := (h.parameter p hp (hall p.1 (mem_parameters_of_readable hp))).1.ready
  refine (hready x.name (List.mem_append_right _ (List.mem_map_of_mem hxp))).resolve_right ?_
  exact fun hforeign => hforeign.2 x hx rfl

include hfree hall in
theorem exists_readable (h : Settled d t₀ t) {s : String} (hs : s ∈ t₀.parameters) :
    ∃ v, (s, v) ∈ t₀.readable := by
  rcases h.registered s (hall s hs) with ⟨p, hp, rfl⟩ | ⟨x, hx, rfl⟩
  · exact ⟨p.2, hp⟩
  · exact absurd hs (hfree.apart x hx)

include h h' hall hall' in
theorem agreeOn_symbols (hdefinitions : ∀ x ∈ v.definitions, x ∈ t₀.definitions)
    (hreferent : ∀ s ∈ v.referent?, AgreeOn t t' s) : ∀ s ∈ v.symbols, AgreeOn t t' s := by
  induction v with
  | atom text => exact nofun
  | reference symbol text =>
    intro s hs
    refine hreferent s ?_
    simpa [Value.symbols, Value.referent?, Value.definitions, eq_comm] using hs
  | element base index type fields ih => exact ih hdefinitions hreferent
  | region inner fields ih => exact ih hdefinitions hreferent
  | definition name type inner source ih =>
    have hinner := ih (fun x hx => hdefinitions x (List.mem_cons_of_mem _ hx)) hreferent
    have hx := hdefinitions ⟨name, type, inner⟩ List.mem_cons_self
    obtain ⟨hx₁, htype₁⟩ := h.definition _ hx (h.isRegistered_definition hall hx)
    obtain ⟨hx₂, htype₂⟩ := h'.definition _ hx (h'.isRegistered_definition hall' hx)
    have hname : AgreeOn t t' name :=
      ⟨by rw [hx₁.slot, hx₂.slot, Value.denote_congr (v := inner) hinner],
        by rw [htype₁, htype₂]⟩
    intro s hs
    rcases List.mem_append.1 hs with hs | hs
    · exact hinner s (List.mem_append_left _ hs)
    · rcases List.mem_cons.1 hs with rfl | hs
      · exact hname
      · exact hinner s (List.mem_append_right _ hs)

include hfree h h' hall hall' in
/-- **The equations have one solution.** -/
theorem agreeOn_parameter {p : String × Value} (hp : p ∈ t₀.readable) :
    AgreeOn t t' p.1 ∧ ∀ s ∈ p.2.symbols, AgreeOn t t' s := by
  obtain ⟨rank, hrank⟩ := hfree.acyclic
  induction hn : rank p.1 using Nat.strongRecOn generalizing p with
  | ind n ih =>
    have hsymbols : ∀ s ∈ p.2.symbols, AgreeOn t t' s := by
      refine agreeOn_symbols h h' hall hall' (fun x hx => List.mem_flatMap.2 ⟨p, hp, hx⟩)
        fun s hs => ?_
      by_cases hin : s ∈ t₀.parameters
      · -- what the value refers to has a smaller rank
        obtain ⟨v, hv⟩ := exists_readable hfree hall h hin
        exact (ih _ (hn ▸ hrank p hp s hs hin) hv rfl).1
      · exact h.agreeOn_foreign h' ⟨hin, hfree.closed p hp s hs⟩
    obtain ⟨hp₁, htype₁⟩ := h.parameter p hp (hall p.1 (mem_parameters_of_readable hp))
    obtain ⟨hp₂, htype₂⟩ := h'.parameter p hp (hall' p.1 (mem_parameters_of_readable hp))
    have hdenote := Value.denote_congr (d := d) hsymbols
    refine ⟨⟨by rw [hp₁.slot, hp₂.slot, hdenote], ?_⟩, hsymbols⟩
    rw [htype₁, htype₂, hdenote]
    cases hs : (p.2.denote d t).symbol with
    | none => rfl
    | some s =>
      rw [Option.bind_some, Option.bind_some, (hsymbols s (Value.mem_symbols_of_denote hs)).types]

include hfree h h' hall hall' in
theorem agreeOn (s : String) : AgreeOn t t' s ∧ t'.exprs[s]? = t.exprs[s]? := by
  by_cases hforeign : t₀.Foreign s
  · refine ⟨h.agreeOn_foreign h' hforeign, ?_⟩
    rw [(h.unregistered s (h.isRegistered_of_foreign hforeign)).1,
      (h'.unregistered s (h'.isRegistered_of_foreign hforeign)).1]
  · have hreg : t.isRegistered s = true := by
      by_contra hnot
      refine hforeign ⟨fun hin => hnot (hall s hin), ?_⟩
      rintro x hx rfl
      exact hnot (h.isRegistered_definition hall hx)
    rcases h.registered s hreg with ⟨p, hp, rfl⟩ | ⟨x, hx, rfl⟩
    · obtain ⟨hagree, hsymbols⟩ := agreeOn_parameter hfree h h' hall hall' hp
      have hin := mem_parameters_of_readable hp
      refine ⟨hagree, ?_⟩
      rw [(h.parameter p hp hreg).1.expr, (h'.parameter p hp (hall' p.1 hin)).1.expr,
        Value.denote_congr hsymbols]
    · obtain ⟨p, hp, hxp⟩ := List.mem_flatMap.1 hx
      obtain ⟨-, hsymbols⟩ := agreeOn_parameter hfree h h' hall hall' hp
      obtain ⟨hx₁, -⟩ := h.definition x hx hreg
      obtain ⟨hx₂, -⟩ := h'.definition x hx (h'.isRegistered_definition hall' hx)
      have hinner := Value.denote_congr (d := d) fun s hs =>
        hsymbols s (Value.symbols_subset_of_mem hxp hs)
      refine ⟨⟨by rw [hx₁.slot, hx₂.slot, hinner], ?_⟩, by rw [hx₁.expr, hx₂.expr, hinner]⟩
      rw [(h.definition x hx hreg).2, (h'.definition x hx (h'.isRegistered_definition hall' hx)).2]

include hfree h h' hall hall' in
theorem gathered_iff {α : Type} {f : Tables → Value → List α} (hf : IsLocal f) (x : α) :
    Gathered f t₀ t' x ↔ Gathered f t₀ t x := by
  have hforth {u u' : Tables} (hu : Settled d t₀ u) (hu' : Settled d t₀ u')
      (hreg : ∀ s ∈ t₀.parameters, u.isRegistered s = true)
      (hreg' : ∀ s ∈ t₀.parameters, u'.isRegistered s = true) (hx : Gathered f t₀ u' x) :
      Gathered f t₀ u x := by
    obtain ⟨p, hp, -, hx⟩ := hx
    obtain ⟨-, hsymbols⟩ := agreeOn_parameter hfree hu hu' hreg hreg' hp
    exact ⟨p, hp, hreg p.1 (mem_parameters_of_readable hp), by rwa [← hf _ _ _ hsymbols]⟩
  exact ⟨hforth h h' hall hall', hforth h' h hall' hall⟩

end Settled

/-- Tables that differ in nothing but the order in which symbols were registered. -/
structure Alike (t t' : Tables) : Prop where
  exprs : t'.exprs = t.exprs
  slots : t'.slots = t.slots
  types : t'.types = t.types
  values : t'.values = t.values
  order : t'.order.Perm t.order
  sizes (root : String) (depth : Nat) : t'.neededSize root depth = t.neededSize root depth

theorem neededSize_eq_of_records {accesses accesses' : List Access} (h : t.Records accesses)
    (h' : t'.Records accesses') (hmem : ∀ a, a ∈ accesses' ↔ a ∈ accesses) (root : String)
    (depth : Nat) : t'.neededSize root depth = t.neededSize root depth := by
  have hlt (n : Nat) : n < t'.sizes[Slot.mk root depth]?.getD 0 ↔
      n < t.sizes[Slot.mk root depth]?.getD 0 := by
    rw [h, h']
    simp only [hmem]
  have hsize : t'.sizes[Slot.mk root depth]?.getD 0 = t.sizes[Slot.mk root depth]?.getD 0 :=
    Nat.le_antisymm (Nat.le_of_not_lt fun hn => Nat.lt_irrefl _ ((hlt _).1 hn))
      (Nat.le_of_not_lt fun hn => Nat.lt_irrefl _ ((hlt _).2 hn))
  rw [neededSize, recordedSize?, hsize, neededSize, recordedSize?]

theorem Shadows.types_eq (h : Shadows d t₀ g t N) (h' : Shadows d t₀ g' t' N)
    (hagree : ∀ s, AgreeOn g g' s) (s : String) : t'.types[s]? = t.types[s]? := by
  by_cases hs : ∃ n, N n ∧ n.1 = s
  · obtain ⟨n, hn, rfl⟩ := hs
    rw [h.narrowed n hn, h'.narrowed n hn]
  · have hnot : ∀ n, N n → n.1 ≠ s := fun n hn hname => hs ⟨n, hn, hname⟩
    rw [h.declared s hnot, h'.declared s hnot, (hagree s).types]

/-- When all parameters are resolved, only the order of registration tells two tables apart. -/
theorem Resolved.alike (hfree : OrderFree d t₀) (h : Resolved d t₀ g t) (h' : Resolved d t₀ g' t')
    (hall : ∀ s ∈ t₀.parameters, g.isRegistered s = true)
    (hall' : ∀ s ∈ t₀.parameters, g'.isRegistered s = true) (howned : t.Owned)
    (howned' : t'.Owned) : Alike t t' := by
  have hagree := Settled.agreeOn hfree h.settled h'.settled hall hall'
  have hgathered {α : Type} {f : Tables → Value → List α} (hf : IsLocal f) (x : α) :=
    Settled.gathered_iff hfree h.settled h'.settled hall hall' hf x
  have hshadows := h'.shadows.congr fun n => (hgathered (isLocal_narrowings d) n).symm
  have hslots : t'.slots = t.slots := by
    rw [h.shadows.slots, hshadows.slots]
    exact Std.ExtTreeMap.ext_getElem? fun s => (hagree s).1.slots
  obtain ⟨accesses, hrecords, hmem⟩ := h.sizes
  obtain ⟨accesses', hrecords', hmem'⟩ := h'.sizes
  constructor
  case exprs =>
    rw [h.shadows.exprs, hshadows.exprs]
    exact Std.ExtTreeMap.ext_getElem? fun s => (hagree s).2
  case slots => exact hslots
  case types =>
    exact Std.ExtTreeMap.ext_getElem? fun s => h.shadows.types_eq hshadows (fun s => (hagree s).1) s
  case values => rw [h.shadows.values, hshadows.values, h'.settled.values, h.settled.values]
  case order =>
    refine (List.perm_ext_iff_of_nodup howned'.nodup howned.nodup).2 fun s => ?_
    rw [howned'.order, howned.order, hslots]
  case sizes =>
    refine neededSize_eq_of_records hrecords hrecords' fun a => ?_
    rw [hmem, hmem', hgathered (isLocal_touched d)]

/-- Before anything is resolved, the equations say nothing. -/
theorem Resolved.intake (d : Declarations) (c : Case) :
    Resolved d (c.intake d) (c.intake d) (c.intake d) := by
  have hnot {s : String} : ¬(c.intake d).isRegistered s = true := by
    simp [isRegistered, Case.intake]
  have hgathered {α : Type} {f : Tables → Value → List α} {x : α} :
      ¬Gathered f (c.intake d) (c.intake d) x := by
    rintro ⟨p, -, h, -⟩
    exact hnot h
  refine ⟨?_, ?_, fun s _ => rfl, [], .intake d c, fun a => ?_⟩
  · constructor
    case parameter => exact fun p _ h => absurd h hnot
    case definition => exact fun x _ h => absurd h hnot
    case registered => exact fun s h => absurd h hnot
    case unregistered => exact fun s _ => ⟨by simp [Case.intake], rfl⟩
    case typed => exact fun s type h hvoid => mem_voids.2 (.inl ⟨type, h, hvoid⟩)
    case values => rfl
  · constructor
    case exprs | slots | values => rfl
    case narrowed | void | known => exact fun n hn => absurd hn hgathered
    case declared => exact fun s _ => rfl
  · exact iff_of_false List.not_mem_nil hgathered

end Tables

open Tables

/-- **The order does not matter** in which the parameters of a case are resolved, if no value
depends on those before it. -/
theorem Declarations.resolveEach_orderFree {d : Declarations} {c : Case}
    (hfree : OrderFree d (c.intake d)) {names names' : List String}
    (h : ∀ s ∈ (c.intake d).parameters, s ∈ names)
    (h' : ∀ s ∈ (c.intake d).parameters, s ∈ names') :
    (∃ e e' t t', d.resolveEach names (c.intake d) = (.error e, t) ∧
      d.resolveEach names' (c.intake d) = (.error e', t')) ∨
    ∃ t t', d.resolveEach names (c.intake d) = (.ok (), t) ∧
      d.resolveEach names' (c.intake d) = (.ok (), t') ∧ Alike t t' := by
  obtain ⟨rank, hrank⟩ := hfree.acyclic
  have howned {names : List String} {t : Tables} {outcome : Except ParseError Unit}
      (heq : d.resolveEach names (c.intake d) = (outcome, t)) : t.Owned := by
    have hruns := runs_resolveEach (d := d) names (c.intake d)
    rw [heq] at hruns
    exact (Tables.Owned.intake d c).runs hruns
  have hreadable {names : List String} {g : Tables} (hg : Settled d (c.intake d) g)
      (hnames : ∀ s ∈ (c.intake d).parameters, s ∈ names)
      (hreg : ∀ s ∈ names, s ∈ (c.intake d).parameters → g.isRegistered s = true) :
      ∀ s ∈ (c.intake d).parameters, ∃ v, (s, v) ∈ (c.intake d).readable := fun s hs =>
    hg.exists_readable hfree (fun s hs => hreg s (hnames s hs) hs) hs
  have hleft := (Resolved.intake d c).resolveEach hfree hrank names
  have hright := (Resolved.intake d c).resolveEach hfree hrank names'
  generalize heq : d.resolveEach names (c.intake d) = outcome at hleft
  generalize heq' : d.resolveEach names' (c.intake d) = outcome' at hright
  -- where one order succeeds all parameters could be read, so the other one does not fail
  cases hleft with
  | error e t hbad =>
    cases hright with
    | error e' t' _ => exact .inl ⟨e, e', t, t', rfl, rfl⟩
    | ok hresolved hP => exact absurd (hreadable hresolved.settled h' hP.2) hbad
  | @ok g t hresolved hP =>
    cases hright with
    | error e' t' hbad => exact absurd (hreadable hresolved.settled h hP.2) hbad
    | @ok g' t' hresolved' hP' =>
      have hall (s : String) (hs : s ∈ (c.intake d).parameters) := hP.2 s (h s hs) hs
      have hall' (s : String) (hs : s ∈ (c.intake d).parameters) := hP'.2 s (h' s hs) hs
      exact .inr ⟨t, t', rfl, rfl,
        hresolved.alike hfree hresolved' hall hall' (howned heq) (howned heq')⟩

end TestSynth
