import TestSynth.Proofs.Duplicates

/-!
# Isolation of failures

A case of which no test can be made is passed over, and the others get the tests that they would get
without it, but for one thing: it was seen, so its digest stays registered, and a later case with
the same digest is taken for a duplicate.

* `TestFunction.isCaseLocal_of_ofCase` : nothing that goes wrong with a case ends the run.
* `TestFunction.yields_iff` : which tests a run yields can be told from each case alone and from the
  digests of those before it.
* `TestFunction.yields_filter_iff` : what the cases that fail keep others from.
-/

namespace TestSynth

theorem bind_error {ε α β : Type} {x : Except ε α} {f : α → Except ε β} {e : ε}
    (h : (x >>= f) = .error e) : x = .error e ∨ ∃ a, x = .ok a ∧ f a = .error e := by
  cases x with
  | error e' =>
    cases h
    exact .inl rfl
  | ok a => exact .inr ⟨a, rfl, h⟩

theorem mapM_error {ε α β : Type} {f : α → Except ε β} {as : List α} {e : ε}
    (h : as.mapM f = .error e) : ∃ a ∈ as, f a = .error e := by
  induction as with
  | nil => cases h
  | cons a as ih =>
    rw [List.mapM_cons] at h
    rcases bind_error h with ha | ⟨b, -, h⟩
    · exact ⟨a, List.mem_cons_self, ha⟩
    · rcases bind_error h with has | ⟨bs, -, h⟩
      · obtain ⟨a', ha', h⟩ := ih has
        exact ⟨a', List.mem_cons_of_mem a ha', h⟩
      · cases h

/-! ### Errors of a case -/

namespace Allocation

variable {d : Declarations} {o : Options} {t : Tables} {e : Error}

theorem isCaseLocal_of_fill {type root : String} {below depth : Nat}
    (h : fill t type root below depth = .error e) : e.isCaseLocal = true := by
  induction below generalizing depth with
  | zero =>
    unfold fill at h
    split at h
    · cases h
    · cases h
      rfl
  | succ below ih =>
    unfold fill at h
    split at h
    · rcases bind_error h with h | ⟨inner, -, h⟩
      · exact ih h
      · cases h
    · cases h
      rfl

theorem isCaseLocal_of_statements {exprs : Table Expr} (h : statements d o t exprs = .error e) :
    e.isCaseLocal = true := by
  rcases bind_error h with h | ⟨parts, -, h⟩
  · obtain ⟨demand, -, h⟩ := mapM_error h
    rcases bind_error h with h | ⟨steps, -, h⟩
    · exact isCaseLocal_of_fill h
    · cases h
  · cases h

end Allocation

namespace TestFunction

variable {d : Declarations} {o : Options} {function : String} {c : Case} {r : Registry}

theorem isCaseLocal_of_body {parameters : List TypedName} {t : Tables} {e : Error}
    (h : body d o function parameters t = .error e) : e.isCaseLocal = true := by
  unfold body at h
  split at h
  · cases h
    rfl
  · rcases bind_error h with h | ⟨statements, -, h⟩
    · exact Allocation.isCaseLocal_of_statements h
    · cases h

/-! ### Cases alone -/

/-- A test without its number and its name. -/
def content (test : TestFunction) : List Statement × Table String :=
  (test.definition.body, test.callNames)

/-- The digest of a case. -/
def digest (d : Declarations) (function : String) (c : Case) : Digest :=
  caseDigest function (c.intake d).values

/-- What becomes of a case that is new: the content of its test, or an error. -/
def attempt (d : Declarations) (o : Options) (function : String) (c : Case) :
    Except Error (List Statement × Table String) := do
  let some parameters := d.parameters? function | .error (.unknownFunction function)
  return (← body d o function parameters (c.intake d), (c.intake d).callNames)

theorem isCaseLocal_of_attempt {e : Error} (h : attempt d o function c = .error e) :
    e.isCaseLocal = true := by
  unfold attempt at h
  split at h
  · rcases bind_error h with h | ⟨statements, -, h⟩
    · exact isCaseLocal_of_body h
    · cases h
  · cases h
    rfl

theorem ofCase_of_new (h : digest d function c ∉ r.accepted) :
    (ofCase d o function c r).1 = (attempt d o function c).map fun x =>
      some ⟨r.size + 1, ⟨testName o function (r.size + 1), x.1⟩, x.2⟩ := by
  have hregister : r.registerCase function (c.intake d).values =
      (some (r.size + 1), ⟨digest d function c :: r.accepted⟩) := Registry.register_of_not_mem h
  simp only [ofCase, hregister, attempt]
  cases d.parameters? function with
  | none => rfl
  | some parameters =>
    simp only
    cases body d o function parameters (c.intake d) <;> rfl

theorem ofCase_of_seen (h : digest d function c ∈ r.accepted) :
    (ofCase d o function c r).1 = .ok none := by
  have hregister : r.registerCase function (c.intake d).values = (none, r) :=
    Registry.register_of_mem h
  simp only [ofCase, hregister]

theorem ofCase_eq_none_iff :
    (ofCase d o function c r).1 = .ok none ↔ digest d function c ∈ r.accepted := by
  refine ⟨fun h => ?_, ofCase_of_seen⟩
  by_contra hnew
  rw [ofCase_of_new hnew] at h
  cases hattempt : attempt d o function c <;> rw [hattempt] at h <;> cases h

/-- A case gets a test if it is new and does not fail, with a content of its own. -/
theorem ofCase_eq_some_iff {x : List Statement × Table String} :
    (∃ test, (ofCase d o function c r).1 = .ok (some test) ∧ test.content = x) ↔
      digest d function c ∉ r.accepted ∧ attempt d o function c = .ok x := by
  by_cases hseen : digest d function c ∈ r.accepted
  · simp [ofCase_of_seen hseen, hseen]
  · rw [ofCase_of_new hseen, and_iff_right hseen]
    cases attempt d o function c with
    | error e => simp [Except.map]
    | ok y => simp [Except.map, content]

/-- Nothing that goes wrong with a case ends the run. -/
theorem isCaseLocal_of_ofCase {e : Error} (h : (ofCase d o function c r).1 = .error e) :
    e.isCaseLocal = true := by
  by_cases hseen : digest d function c ∈ r.accepted
  · rw [ofCase_of_seen hseen] at h
    cases h
  · rw [ofCase_of_new hseen] at h
    cases hattempt : attempt d o function c with
    | error e' =>
      rw [hattempt] at h
      cases h
      exact isCaseLocal_of_attempt hattempt
    | ok x =>
      rw [hattempt] at h
      cases h

/-- The case fails with an error of its own if it is the only one. -/
def fails (d : Declarations) (o : Options) (function : String) (c : Case) : Bool :=
  match (ofCase d o function c {}).1 with
  | .error e => e.isCaseLocal
  | .ok _ => false

theorem fails_eq_false_iff :
    fails d o function c = false ↔ ∃ x, attempt d o function c = .ok x := by
  rw [fails, ofCase_of_new List.not_mem_nil]
  cases h : attempt d o function c with
  | error e => simp [Except.map, isCaseLocal_of_attempt h]
  | ok x => simp [Except.map]

/-! ### Runs -/

/-- The requests for tests of one function. -/
def requests (function : String) (cs : List Case) : List Request := cs.map (⟨function, ·⟩)

/-- The tests among the outcomes of some cases. -/
def tests (d : Declarations) (o : Options) (function : String) (cs : List Case) (r : Registry) :
    List TestFunction :=
  (outcomes d o (requests function cs) r).filterMap fun outcome => outcome.toOption.join

theorem ofCases_cons (c : Case) (cs : List Case) (r : Registry) :
    ofCases d o function (c :: cs) r =
      ((ofCases d o function cs (ofCase d o function c r).2).1.map
          ((ofCase d o function c r).1.toOption.join.toList ++ ·),
        (ofCases d o function cs (ofCase d o function c r).2).2) := by
  have hlocal {e : Error} (h : (ofCase d o function c r).1 = .error e) := isCaseLocal_of_ofCase h
  rw [ofCases]
  generalize ofCase d o function c r = outcome at hlocal
  obtain ⟨result, r⟩ := outcome
  cases result with
  | error e =>
    simp only [hlocal rfl, if_true]
    cases ofCases d o function cs r with
    | mk made r => cases made <;> rfl
  | ok test? => rfl

theorem ofCases_eq (cs : List Case) (r : Registry) :
    (ofCases d o function cs r).1 = .ok (tests d o function cs r) := by
  induction cs generalizing r with
  | nil => rfl
  | cons c cs ih =>
    have htests : tests d o function (c :: cs) r = (ofCase d o function c r).1.toOption.join.toList ++
        tests d o function cs (ofCase d o function c r).2 := by
      rw [tests, requests, List.map_cons, outcomes, List.filterMap_cons]
      cases (ofCase d o function c r).1.toOption.join <;> rfl
    rw [ofCases_cons, ih, htests]
    rfl

/-- The case at position `i` gets a test with the content `x`. -/
def Yields (d : Declarations) (o : Options) (function : String) (cs : List Case) (i : Nat)
    (x : List Statement × Table String) : Prop :=
  ∃ test, (outcomes d o (requests function cs) {})[i]? = some (.ok (some test)) ∧ test.content = x

theorem exists_outcome {qs : List Request} {q : Request} {i : Nat} (hq : qs[i]? = some q)
    (r : Registry) :
    ∃ r', (outcomes d o qs r)[i]? = some (ofCase d o q.function q.given r').1 := by
  induction qs generalizing r i with
  | nil => cases hq
  | cons q' qs ih =>
    cases i with
    | zero =>
      cases hq
      exact ⟨r, rfl⟩
    | succ i => exact ih hq _

theorem dropped_iff_mem_take {cs : List Case} {i : Nat} (hi : i < cs.length) :
    (outcomes d o (requests function cs) {})[i]? = some (.ok none) ↔
      ∃ c' ∈ cs.take i, digest d function c' = digest d function cs[i] := by
  rw [dropped_iff (requests function cs) (by simpa [requests] using hi)]
  simp only [requests, List.getElem_map, List.mem_take_iff_getElem]
  constructor
  · rintro ⟨j, hj, h⟩
    exact ⟨cs[j], ⟨j, by omega, rfl⟩, h⟩
  · rintro ⟨_, ⟨j, hj, rfl⟩, h⟩
    exact ⟨j, by omega, h⟩

/-- **A case gets a test if it is the first with its digest and does not fail**, and then the test
has the same content in every run. -/
theorem yields_iff {cs : List Case} {i : Nat} {x : List Statement × Table String}
    (hc : cs[i]? = some c) :
    Yields d o function cs i x ↔
      (∀ c' ∈ cs.take i, digest d function c' ≠ digest d function c) ∧
        attempt d o function c = .ok x := by
  obtain ⟨hi, rfl⟩ := List.getElem?_eq_some_iff.1 hc
  have hdropped : (outcomes d o (requests function cs) {})[i]? = some (.ok none) ↔ _ :=
    dropped_iff_mem_take hi
  have hrequest : (requests function cs)[i]? = some ⟨function, cs[i]⟩ := by simp [requests, hi]
  obtain ⟨r, hr⟩ := exists_outcome (d := d) (o := o) hrequest {}
  -- the registry has seen the digest exactly if one of the cases before has it
  rw [hr, Option.some.injEq, ofCase_eq_none_iff] at hdropped
  simp only [Yields, hr, Option.some.injEq]
  rw [ofCase_eq_some_iff, hdropped]
  simp only [not_exists, not_and, ne_eq]

/-! ### Without the cases that fail -/

/-- What stood before a member of a list stands before it when others are left out. -/
theorem getElem?_filter_countP {α : Type} {p : α → Bool} {as : List α} {i : Nat} {a : α}
    (ha : as[i]? = some a) (hp : p a = true) :
    (as.filter p)[(as.take i).countP p]? = some a ∧
      (as.filter p).take ((as.take i).countP p) = (as.take i).filter p := by
  obtain ⟨hi, rfl⟩ := List.getElem?_eq_some_iff.1 ha
  have hsplit : as.filter p = (as.take i).filter p ++ as[i] :: (as.drop (i + 1)).filter p := by
    rw [← List.filter_cons_of_pos hp, ← List.drop_eq_getElem_cons hi, ← List.filter_append,
      List.take_append_drop]
  rw [hsplit, List.countP_eq_length_filter]
  exact ⟨by simp, List.take_left⟩

/-- **A case that fails takes its digest from others, and nothing else.**  The tests for some cases
are those for the cases that do not fail, but for the ones that have the digest of an earlier case
that fails. -/
theorem yields_filter_iff (d : Declarations) (o : Options) (function : String) (cs : List Case) :
    (ofCases d o function cs {}).1 = .ok (tests d o function cs {}) ∧
    (ofCases d o function (cs.filter fun c => !fails d o function c) {}).1 =
      .ok (tests d o function (cs.filter fun c => !fails d o function c) {}) ∧
    ∀ (i : Nat) (c : Case) (x : List Statement × Table String), cs[i]? = some c →
      (Yields d o function cs i x ↔ fails d o function c = false ∧
        Yields d o function (cs.filter fun c => !fails d o function c)
          ((cs.take i).countP fun c => !fails d o function c) x ∧
        ∀ c' ∈ cs.take i, fails d o function c' = true →
          digest d function c' ≠ digest d function c) := by
  refine ⟨ofCases_eq cs {}, ofCases_eq _ {}, fun i c x hc => ?_⟩
  rw [yields_iff hc]
  by_cases hfails : fails d o function c = true
  · rw [hfails]
    simp only [Bool.true_eq_false, false_and, iff_false, not_and]
    intro _ hx
    rw [fails_eq_false_iff.2 ⟨x, hx⟩] at hfails
    cases hfails
  · rw [Bool.not_eq_true] at hfails
    obtain ⟨hgood, htake⟩ := getElem?_filter_countP (p := fun c => !fails d o function c) hc
      (by rw [hfails]; rfl)
    rw [yields_iff hgood, htake, and_iff_right hfails]
    simp only [List.mem_filter, Bool.not_eq_true']
    constructor
    · rintro ⟨hne, hx⟩
      exact ⟨⟨fun c' hc' => hne c' hc'.1, hx⟩, fun c' hc' _ => hne c' hc'⟩
    · rintro ⟨⟨hne, hx⟩, hnotFailed⟩
      refine ⟨fun c' hc' => ?_, hx⟩
      cases hfails' : fails d o function c' with
      | true => exact hnotFailed c' hc' hfails'
      | false => exact hne c' ⟨hc', hfails'⟩

/-- A case whose value breaks off. -/
def brokenCase : Case where
  parameters := .ofList [("reg_$0", "Element\x7bx,1,int")]
  model := "reg_$0 -> 1"
  types := .ofList [("reg_$0", "int")]

/-- A case whose value can be read. -/
def intactCase (literal : String) : Case where
  parameters := .ofList [("reg_$0", "x")]
  model := "reg_$0 -> " ++ literal
  types := .ofList [("reg_$0", "int")]

theorem fails_brokenCase : fails numberFunction {} "foo" brokenCase = true := by decide +kernel

theorem exists_yields_intactCase (literal : String) (h : literal ∈ ["1", "2"]) :
    ∃ x, attempt numberFunction {} "foo" (intactCase literal) = .ok x ∧
      Yields numberFunction {} "foo" [intactCase literal] 0 x := by
  have hfails : fails numberFunction {} "foo" (intactCase literal) = false := by
    rw [List.mem_cons, List.mem_singleton] at h
    rcases h with rfl | rfl <;> decide +kernel
  obtain ⟨x, hx⟩ := fails_eq_false_iff.1 hfails
  exact ⟨x, hx, (yields_iff rfl).2 ⟨nofun, hx⟩⟩

theorem yields_filter_of_intactCase {literal : String} {x : List Statement × Table String}
    (hx : attempt numberFunction {} "foo" (intactCase literal) = .ok x)
    (h : Yields numberFunction {} "foo" [intactCase literal] 0 x) :
    let cs := [brokenCase, intactCase literal]
    Yields numberFunction {} "foo" (cs.filter fun c => !fails numberFunction {} "foo" c)
      ((cs.take 1).countP fun c => !fails numberFunction {} "foo" c) x := by
  have hintact := fails_eq_false_iff.2 ⟨x, hx⟩
  simpa [fails_brokenCase, hintact] using h

/-- Another literal, another digest: the case gets its test though the one before it fails. -/
theorem yields_filter_brokenCase :
    ∃ x, Yields numberFunction {} "foo" [intactCase "2"] 0 x ∧
      Yields numberFunction {} "foo" [brokenCase, intactCase "2"] 1 x := by
  obtain ⟨x, hx, halone⟩ := exists_yields_intactCase "2" (by decide)
  refine ⟨x, halone, ?_⟩
  refine ((yields_filter_iff numberFunction {} "foo" [brokenCase, intactCase "2"]).2.2 1
    (intactCase "2") x rfl).2
    ⟨fails_eq_false_iff.2 ⟨x, hx⟩, yields_filter_of_intactCase hx halone, ?_⟩
  intro c' hc' _
  obtain rfl : c' = brokenCase := List.mem_singleton.1 hc'
  decide +kernel

/-- The same literal, the same digest: the case gets no test because the one before it fails. -/
theorem not_yields_brokenCase :
    ¬∀ (d : Declarations) (o : Options) (function : String) (cs : List Case) (i : Nat) (c : Case)
      (x : List Statement × Table String), cs[i]? = some c →
        (Yields d o function cs i x ↔ fails d o function c = false ∧
          Yields d o function (cs.filter fun c => !fails d o function c)
            ((cs.take i).countP fun c => !fails d o function c) x) := by
  intro hclaim
  obtain ⟨x, hx, halone⟩ := exists_yields_intactCase "1" (by decide)
  have hyields : Yields numberFunction {} "foo" [brokenCase, intactCase "1"] 1 x :=
    (hclaim numberFunction {} "foo" [brokenCase, intactCase "1"] 1 (intactCase "1") x rfl).2
      ⟨fails_eq_false_iff.2 ⟨x, hx⟩, yields_filter_of_intactCase hx halone⟩
  have hdigest : digest numberFunction "foo" brokenCase =
      digest numberFunction "foo" (intactCase "1") := by
    have hvalues : (brokenCase.intake numberFunction).values =
        ((intactCase "1").intake numberFunction).values := by decide +kernel
    rw [digest, digest, hvalues]
  exact ((yields_iff rfl).1 hyields).1 brokenCase List.mem_cons_self hdigest

end TestFunction

end TestSynth
