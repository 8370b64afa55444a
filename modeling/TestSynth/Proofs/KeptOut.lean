import TestSynth.Proofs.Growth
import TestSynth.Proofs.Isolation
import TestSynth.Proofs.Layers
import TestSynth.Proofs.Turns

/-!
# What is kept out of a test

A parameter that is bound to a compiler builtin is dropped with all that is known of it.  A
parameter that is the result of a call is set aside with its literal.  Neither comes back, whatever
is read: the symbols that are defined inside values are registers, so no call result becomes a
parameter again, and the literals stay as they were.

* `Case.sorted_intake` : the intake sorts a case.
* `Learned.parameters` : only registers become parameters.
* `Case.keptOut_after` : what the intake took out of a case stays out, of the tables and of the
  test.
-/

namespace TestSynth

variable {d : Declarations} {c : Case} {s : String}

/-! ### The intake -/

namespace Case

/-- The symbol is a parameter that is bound to a compiler builtin. -/
def Drops (c : Case) (s : String) : Prop :=
  ∃ text, c.parameters[s]? = some text ∧ builtinMark.toList <+: text.toList

/-- The symbol is a conjured parameter that is bound to a function that is known. -/
def SetsAside (c : Case) (d : Declarations) (s : String) : Prop :=
  ∃ text, c.parameters[s]? = some text ∧ ¬builtinMark.toList <+: text.toList ∧
    conjuredMark.toList <+: s.toList ∧ Text.trimmed text ∈ d.functions

/-- Nothing that is known of the symbol is dropped or set aside. -/
def Keeps (c : Case) (d : Declarations) (s : String) : Prop := ¬c.Drops s ∧ ¬c.SetsAside d s

/-- The tables have each parameter, literal and type of a case in its place, and nothing else. -/
structure Sorted (c : Case) (d : Declarations) (t : Tables) : Prop where
  apart : ∀ s, ¬(c.Drops s ∧ c.SetsAside d s)
  parameters : ∀ s text, t.parameters[s]? = some text ↔
    c.parameters[s]? = some text ∧ c.Keeps d s
  callNames : ∀ s text, t.callNames[s]? = some text ↔
    c.parameters[s]? = some text ∧ c.SetsAside d s
  values : ∀ s literal, t.values[s]? = some literal ↔
    (Model.parse c.model)[s]? = some literal ∧ c.Keeps d s
  callValues : ∀ s literal, t.callValues[s]? = some literal ↔
    (Model.parse c.model)[s]? = some literal ∧ c.SetsAside d s
  types : ∀ s type, t.types[s]? = some type ↔ c.types[s]? = some type ∧ ¬c.Drops s

/-! #### Fates -/

theorem fate_eq_dropped : c.fate d s = .dropped ↔ c.Drops s := by
  rw [fate, Drops]
  cases c.parameters[s]? with
  | none => simp
  | some text =>
    simp only [Declarations.fate, Option.some.injEq, exists_eq_left', ← List.isPrefixOf_iff_prefix]
    split
    · simp [*]
    · split <;> simp [*]

theorem fate_eq_callResult : c.fate d s = .callResult ↔ c.SetsAside d s := by
  rw [fate, SetsAside]
  cases c.parameters[s]? with
  | none => simp
  | some text =>
    simp only [Declarations.fate, Option.some.injEq, exists_eq_left', ← List.isPrefixOf_iff_prefix,
      Std.ExtTreeMap.mem_iff_contains]
    split
    · simp [*]
    · split <;> simp_all [Declarations.hasFunction]

theorem fate_eq_kept : c.fate d s = .kept ↔ c.Keeps d s := by
  rw [Keeps, ← fate_eq_dropped (d := d), ← fate_eq_callResult]
  cases c.fate d s <;> decide

theorem fate_of_parameter {text : String} (h : c.parameters[s]? = some text) :
    c.fate d s = d.fate s text := by
  rw [fate, h]

/-- **The intake sorts a case.** -/
theorem sorted_intake (d : Declarations) (c : Case) : c.Sorted d (c.intake d) where
  apart s := by
    rintro ⟨⟨text, htext, hbuiltin⟩, text', htext', hnot, -⟩
    rw [htext] at htext'
    cases htext'
    exact hnot hbuiltin
  parameters s text := by
    rw [intake, Table.getElem?_filter_eq_some, beq_iff_eq, ← fate_eq_kept]
    exact and_congr_right fun h => by rw [fate_of_parameter h]
  callNames s text := by
    rw [intake, Table.getElem?_filter_eq_some, beq_iff_eq, ← fate_eq_callResult]
    exact and_congr_right fun h => by rw [fate_of_parameter h]
  values s literal := by
    rw [intake, Table.getElem?_filter_eq_some, beq_iff_eq, fate_eq_kept]
  callValues s literal := by
    rw [intake, Table.getElem?_filter_eq_some, beq_iff_eq, fate_eq_callResult]
  types s type := by
    rw [intake, Table.getElem?_filter_eq_some, bne_iff_ne, ne_eq, fate_eq_dropped]

end Case

/-! ### New parameters -/

/-- The symbol is a register. -/
def IsRegister (s : String) : Prop := Token.isNumbered "reg_$".toList s.toList = true

theorem IsRegister.not_conjured (h : IsRegister s) : ¬conjuredMark.toList <+: s.toList := by
  rintro ⟨rest, heq⟩
  rw [IsRegister, ← heq, Token.isNumbered, Bool.and_eq_true, Bool.and_eq_true] at h
  exact absurd h.1.1 (by simp [conjuredMark])

theorem Tables.Owned.mem_parameters_of_isRegistered {t : Tables} (h : t.Owned)
    (hs : t.isRegistered s = true) : s ∈ t.parameters :=
  h.parameters s (Tables.isRegistered_iff.1 hs)

/-- **Only registers become parameters**, if the values that are read define nothing else. -/
theorem Learned.parameters {read : Value → Prop} {t t' : Tables} (h : Learned d read t t')
    (howned : t.Owned) (hread : ∀ v, read v → ∀ x ∈ v.definitions, IsRegister x.name)
    (hs : s ∈ t'.parameters) : s ∈ t.parameters ∨ IsRegister s := by
  induction h with
  | refl => exact .inl hs
  | @tail t' t'' hlearned hlearns ih =>
    have howned' : t'.Owned := howned.runs (Learned.runs hlearned)
    have hext : Extends t' t'' := (Learned.runs (.single hlearns)).extends
    rcases hext.new s hs with hs | hreg
    · exact ih hs
    -- what has just been registered is the parameter of the move, or is defined inside its value
    cases hlearns with
    | @bind v hv =>
      rcases Value.isRegistered_bind.1 hreg with ⟨x, hx, rfl⟩ | hreg
      · exact .inr (hread v hv x hx)
      · exact ih (howned'.mem_parameters_of_isRegistered hreg)
    | @parameter name v _ hv hname text =>
      rcases isRegistered_turn.1 hreg with rfl | ⟨x, hx, rfl⟩ | hreg
      · exact ih hname
      · exact .inr (hread v hv x hx)
      · exact ih (howned'.mem_parameters_of_isRegistered hreg)

/-- The value is what there was to read of some text. -/
def Value.IsRead (v : Value) : Prop := ∃ limit text, completed? (parse limit text) = some v

namespace Tables

/-- All that is ever learned of a case is learned from values that were read. -/
theorem learned_after (d : Declarations) (c : Case) (ops : List Operation) :
    Learned d Value.IsRead (c.intake d) (after d c ops) := by
  have hall (t : Tables) :
      Learned d Value.IsRead t (ops.foldl (fun t op => op.apply d t) t) := by
    induction ops generalizing t with
    | nil => exact .refl
    | cons op ops ih =>
      exact ((op.learned t).mono fun v ⟨text, _, hv⟩ => ⟨op.limit, text, hv⟩).trans (ih _)
  exact hall _

/-- Whatever is done with the tables of a case, only registers become parameters. -/
theorem parameters_after {ops : List Operation} (hs : s ∈ (after d c ops).parameters) :
    s ∈ (c.intake d).parameters ∨ IsRegister s :=
  (learned_after d c ops).parameters (.intake d c)
    (fun _ ⟨_, _, hv⟩ _ hx => Value.isNumbered_of_completed hv hx) hs

theorem values_after (d : Declarations) (c : Case) (ops : List Operation) :
    (after d c ops).values = (c.intake d).values := by
  have hgrows : Grows d (fun _ => True) (c.intake d) (after d c ops) :=
    .learned (fun _ _ _ _ => trivial) (learned_after d c ops)
  exact hgrows.values

end Tables

/-! ### The test -/

namespace TestFunction

/-- The assignment that is made for an entry of the model. -/
def assignment? (d : Declarations) (t : Tables) : String × String → Option Statement
  | (symbol, literal) => do
    let expr ← t.substituted[symbol]?
    let type ← t.types[symbol]?
    if d.isPointerType type then none else some (.assign expr.render literal)

/-- What the body of a test consists of. -/
theorem body_eq_ok {o : Options} {function : String} {parameters : List TypedName} {t : Tables}
    {statements : List Statement} (h : body d o function parameters t = .ok statements) :
    ∃ t' allocations, d.resolveParameters t = (.ok (), t') ∧
      Allocation.statements d o t' t'.substituted = .ok allocations ∧
      statements = parameters.map (fun p => .declare p.type p.name) ++ allocations ++
        t'.values.toList.filterMap (assignment? d t') ++
        [.call function (parameters.map (·.name)), .call o.releaser []] := by
  unfold body at h
  split at h
  · cases h
  · next t' hresolve =>
    obtain ⟨allocations, hallocations, h⟩ := bind_ok h
    cases h
    exact ⟨t', allocations, hresolve, hallocations, rfl⟩

end TestFunction

namespace Case

/-- The statements are a body whose assignments are made for the literals of symbols that are kept,
and for nothing else. -/
def AssignsKept (c : Case) (d : Declarations) (o : Options) (function : String)
    (parameters : List TypedName) (t : Tables) (statements : List Statement) : Prop :=
  ∃ (t' : Tables) (allocations : List Statement) (entries : List (String × String)),
    d.resolveParameters t = (.ok (), t') ∧
    Allocation.statements d o t' t'.substituted = .ok allocations ∧
    statements = parameters.map (fun p => .declare p.type p.name) ++ allocations ++
      entries.filterMap (TestFunction.assignment? d t') ++
      [.call function (parameters.map (·.name)), .call o.releaser []] ∧
    ∀ symbol literal, (symbol, literal) ∈ entries ↔
      (Model.parse c.model)[symbol]? = some literal ∧ c.Keeps d symbol

/-- What is not kept of a case is not in the tables, and nothing is assigned to it. -/
structure KeptOut (c : Case) (d : Declarations) (t : Tables) : Prop where
  callResults : ∀ s, c.SetsAside d s →
    s ∉ t.parameters ∧ s ∉ t.values ∧ s ∉ t.exprs ∧ s ∉ t.slots
  dropped : ∀ s, c.Drops s → s ∉ t.values
  body : ∀ (o : Options) (function : String) (parameters : List TypedName)
    (statements : List Statement),
    TestFunction.body d o function parameters t = .ok statements →
      c.AssignsKept d o function parameters t statements

theorem not_mem_parameters {ops : List Operation} (h : c.SetsAside d s) :
    s ∉ (Tables.after d c ops).parameters := by
  intro hs
  rcases Tables.parameters_after hs with hs | hregister
  · obtain ⟨text, htext⟩ := Table.exists_of_mem hs
    exact (((sorted_intake d c).parameters s text).1 htext).2.2 h
  · obtain ⟨-, -, -, hconjured, -⟩ := h
    exact hregister.not_conjured hconjured

theorem keeps_of_mem_values {ops : List Operation} (h : s ∈ (Tables.after d c ops).values) :
    c.Keeps d s := by
  rw [Tables.values_after] at h
  obtain ⟨literal, hliteral⟩ := Table.exists_of_mem h
  exact (((sorted_intake d c).values s literal).1 hliteral).2

theorem assignsKept_of_body (ops : List Operation) {o : Options} {function : String}
    {parameters : List TypedName} {statements : List Statement}
    (h : TestFunction.body d o function parameters (Tables.after d c ops) = .ok statements) :
    c.AssignsKept d o function parameters (Tables.after d c ops) statements := by
  obtain ⟨t', allocations, hresolve, hallocations, heq⟩ := TestFunction.body_eq_ok h
  refine ⟨t', allocations, t'.values.toList, hresolve, hallocations, heq, fun symbol literal => ?_⟩
  -- the resolution is one more operation, so the literals are those of the intake
  have hafter : t' = Tables.after d c (ops ++ [.resolve]) := by
    rw [Tables.after_append, List.foldl_cons, List.foldl_nil, Operation.apply, hresolve]
  rw [Std.ExtTreeMap.mem_toList_iff_getElem?_eq_some, hafter, Tables.values_after]
  exact (sorted_intake d c).values symbol literal

theorem body_of_ofCase {o : Options} {function : String} {r : Registry} {test : TestFunction}
    (h : (TestFunction.ofCase d o function c r).1 = .ok (some test)) :
    ∃ parameters, d.parameters? function = some parameters ∧
      TestFunction.body d o function parameters (c.intake d) = .ok test.definition.body := by
  have hattempt := (TestFunction.ofCase_eq_some_iff.1 ⟨test, h, rfl⟩).2
  unfold TestFunction.attempt at hattempt
  split at hattempt
  · next parameters hparameters =>
    obtain ⟨body, hbody, heq⟩ := bind_ok hattempt
    have hsame : body = test.definition.body := congrArg Prod.fst (Except.ok.inj heq)
    exact ⟨parameters, hparameters, hsame ▸ hbody⟩
  · cases hattempt

theorem keptOut (d : Declarations) (c : Case) (ops : List Operation) :
    c.KeptOut d (Tables.after d c ops) where
  callResults s hs := by
    have howned : (Tables.after d c ops).Owned :=
      (Tables.Owned.intake d c).runs (Tables.learned_after d c ops).runs
    have hslots : s ∉ (Tables.after d c ops).slots :=
      fun hmem => not_mem_parameters hs (howned.parameters s hmem)
    exact ⟨not_mem_parameters hs, fun hmem => (keeps_of_mem_values hmem).2 hs,
      fun hmem => hslots ((howned.exprs s).1 hmem), hslots⟩
  dropped _ hs hmem := (keeps_of_mem_values hmem).1 hs
  body _ _ _ _ h := assignsKept_of_body ops h

/-- **What is taken out of a case stays out.**  The intake drops the parameters that are bound to
builtins and sets call results aside; whatever is read afterwards, they do not come back into the
tables, and the test of the case assigns nothing to them. -/
theorem keptOut_after (d : Declarations) (c : Case) :
    c.Sorted d (c.intake d) ∧ (∀ ops, c.KeptOut d (Tables.after d c ops)) ∧
      ∀ (o : Options) (function : String) (r : Registry) (test : TestFunction),
        (TestFunction.ofCase d o function c r).1 = .ok (some test) →
          ∃ parameters, d.parameters? function = some parameters ∧
            c.AssignsKept d o function parameters (c.intake d) test.definition.body := by
  refine ⟨sorted_intake d c, keptOut d c, fun o function r test h => ?_⟩
  obtain ⟨parameters, hparameters, hbody⟩ := body_of_ofCase h
  exact ⟨parameters, hparameters, assignsKept_of_body [] hbody⟩

/-- A function of a number, and another one whose result it may depend on. -/
def callFunctions : Declarations where
  functions := .ofList [("foo", [TypedName.mk "x" "int"]), ("get_len", [])]

/-- A case with a parameter of each kind. -/
def callCase : Case where
  parameters := .ofList [("conj_$3", "get_len"), ("reg_$4", "__builtin_trap"), ("reg_$5", "x")]
  model := "conj_$3 -> 8\nreg_$4 -> 7\nreg_$5 -> 9"
  types := .ofList [("conj_$3", "int"), ("reg_$4", "int"), ("reg_$5", "int")]

/-- The call result is looked at once more, and the test is made all the same. -/
theorem keptOut_callCase :
    callCase.SetsAside callFunctions "conj_$3" ∧ callCase.Drops "reg_$4" ∧
    (let t :=
        Tables.after callFunctions callCase [.read 4 "Element\x7bconj_$3,2,int\x7d", .resolve];
      ("conj_$3" ∉ t.parameters ∧ "conj_$3" ∉ t.values ∧ "conj_$3" ∉ t.exprs ∧
        "conj_$3" ∉ t.slots) ∧ "reg_$4" ∉ t.values) ∧
    ∃ test parameters,
      (TestFunction.ofCase callFunctions {} "foo" callCase {}).1 = .ok (some test) ∧
      callCase.AssignsKept callFunctions {} "foo" parameters (callCase.intake callFunctions)
        test.definition.body := by
  obtain ⟨-, hkept, htest⟩ := keptOut_after callFunctions callCase
  have haside : callCase.SetsAside callFunctions "conj_$3" :=
    fate_eq_callResult.1 (by decide +kernel)
  have hdrops : callCase.Drops "reg_$4" :=
    (fate_eq_dropped (d := callFunctions)).1 (by decide +kernel)
  refine ⟨haside, hdrops, ⟨(hkept _).callResults _ haside, (hkept _).dropped _ hdrops⟩, ?_⟩
  have hsome : (TestFunction.ofCase callFunctions {} "foo" callCase {}).1.toOption.join.isSome := by
    decide +kernel
  match hcase : (TestFunction.ofCase callFunctions {} "foo" callCase {}).1 with
  | .ok (some test) =>
    obtain ⟨parameters, -, hassigns⟩ := htest {} "foo" {} test hcase
    exact ⟨test, parameters, rfl, hassigns⟩
  | .ok none | .error _ =>
    rw [hcase] at hsome
    cases hsome

end Case

end TestSynth
