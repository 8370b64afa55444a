import TestSynth.Proofs.Renaming.Body

/-!
# Tests do not depend on how symbols are numbered

A test says the same of a case and of the renamed case.  There are two reasons for this, and each is
enough: the parameters may be resolved in the same order before and after the renaming, or the order
may not matter.  Where neither holds, a reference is read before what it refers to is defined, and
what was learned of its storage is lost.

* `Renaming.Tests` : a test, and the test of the renamed case.
* `Renaming.ofCase_renamed` : the test of a renamed case is the renamed test.
-/

namespace TestSynth

namespace Renaming

open Text (Plain)
open TestSynth.TestFunction
open Allocation (bufferFunction)

variable (ρ : Renaming) {d : Declarations} {o : Options} {c : Case} {function : String}

/-- Two tests of the same name and number, of which the second has the renamed statements of the
first, in any order. -/
structure Tests (test test' : TestFunction) : Prop where
  caseId : test'.caseId = test.caseId
  name : test'.definition.name = test.definition.name
  body : test'.definition.body.Perm (test.definition.body.map ρ.statement)
  callNames : ρ.Carries ρ.text test.callNames test'.callNames

/-- The parameters of the renamed case have their turns in the same order. -/
def KeepsSchedule (d : Declarations) (c : Case) : Prop :=
  Declarations.schedule ((ρ.case c).intake d) = (Declarations.schedule (c.intake d)).map ρ.text

variable {ρ}

theorem body_renamed (hd : d.Plain) (ho : PlainOptions o)
    (htypes : ∀ name type : String, c.types[name]? = some type → Plain type.toList)
    (horder : ρ.KeepsSchedule d c ∨ c.Orderless d)
    {parameters : List TypedName} (hfunction : d.parameters? function = some parameters) :
    Agree (fun ss ss' => ss'.Perm (ss.map ρ.statement))
      (body d o function parameters (c.intake d))
      (body d o function parameters ((ρ.case c).intake d)) := by
  have hintake := Tables.Renamed.intake hd htypes ρ
  obtain ⟨hname, hparameters⟩ := hd.function hfunction
  have hrenamed (names : List String) := bodyInOrder_renamed hd ho hintake hname hparameters names
  rcases horder with hschedule | horderless
  · rw [body_eq, body_eq, hschedule]
    exact hrenamed _
  · -- the order of the renamed case, taken back to the case
    obtain ⟨names, hnames⟩ : ∃ names : List String,
        names.map ρ.text = Declarations.schedule ((ρ.case c).intake d) :=
      ⟨(Declarations.schedule ((ρ.case c).intake d)).map (Renaming.text ρ.symm), by
        rw [List.map_map]
        exact (List.map_congr_left fun s _ => ρ.text_symm s).trans (List.map_id _)⟩
    have hall : ∀ s ∈ (c.intake d).parameters, s ∈ names := by
      intro s hs
      have hmem : ρ.text s ∈ names.map ρ.text := by
        rw [hnames, Declarations.mem_schedule, hintake.parameters.mem_iff]
        exact hs
      obtain ⟨s', hs', heq⟩ := List.mem_map.1 hmem
      rwa [← ρ.text_injective heq]
    rw [body_eq function parameters ((ρ.case c).intake d), ← hnames]
    refine (bodyInOrder_orderless horderless function parameters hall).trans (hrenamed names) ?_
    exact fun ss ss' ss'' hperm hperm' => hperm'.trans (hperm.map _)

/-- **The test of a renamed case is the renamed test**, up to the order of its statements, and there
is one if there is one of the case, as long as the parameters are resolved in the same order or the
order does not matter. -/
theorem ofCase_renamed (hd : d.Plain) (ho : PlainOptions o)
    (htypes : ∀ name type : String, c.types[name]? = some type → Plain type.toList)
    (horder : ρ.KeepsSchedule d c ∨ c.Orderless d) :
    Agree (fun result result' => ∃ test test', result = some test ∧ result' = some test' ∧
        ρ.Tests test test')
      (ofCase d o function c {}).1 (ofCase d o function (ρ.case c) {}).1 := by
  have hregister (c : Case) : ({} : Registry).registerCase function (c.intake d).values =
      (some 1, ⟨[caseDigest function (c.intake d).values]⟩) := rfl
  cases hfunction : d.parameters? function with
  | none =>
    have hcase (c : Case) : (ofCase d o function c {}).1 = .error (.unknownFunction function) := by
      simp only [ofCase, hregister, hfunction]
    rw [hcase, hcase]
    exact .error _ _
  | some parameters =>
    have hcase (c : Case) : (ofCase d o function c {}).1 = do
        let body ← body d o function parameters (c.intake d)
        return some ⟨1, ⟨testName o function 1, body⟩, (c.intake d).callNames⟩ := by
      simp only [ofCase, hregister, hfunction]
    rw [hcase, hcase]
    refine (body_renamed hd ho htypes horder hfunction).bind fun ss ss' hss => ?_
    refine .ok ⟨_, _, rfl, rfl, rfl, rfl, hss, ?_⟩
    exact (Carries.table ρ ρ.text c.parameters).filter fun name text => by rw [ρ.fate_text hd]

/-! ### Renamed cases of two kinds -/

theorem isNumbered_repr (n : Nat) :
    Token.isNumbered "reg_$".toList ("reg_$".toList ++ n.repr.toList) = true := by
  have hdigits : n.repr.toList.all Char.isDigit = true :=
    List.all_eq_true.2 fun c hc => Index.isDigit_of_mem_repr hc
  have hpos : 0 < n.repr.toList.length := List.length_pos_iff.2 (by simp)
  rw [Token.isNumbered, List.drop_left, hdigits, List.length_append, Bool.and_true,
    Bool.and_eq_true, decide_eq_true_eq, List.isPrefixOf_iff_prefix]
  exact ⟨List.prefix_append _ _, by omega⟩

/-- The register symbol with a number. -/
def numbered (n : Nat) : Register := ⟨"reg_$".toList ++ n.repr.toList, isNumbered_repr n⟩

/-- A function with a record whose buffer is the argument. -/
def recordFunction : Declarations where
  functions := .ofList [("foo", [TypedName.mk "s" "struct s *"])]

/-- An element of a buffer that has a symbol of its own. -/
def recordBuffer : Case where
  parameters := .ofList [("reg_$2", "SymRegion\x7breg_$0<struct s *,s>\x7d.buf"),
    ("reg_$3", "Element\x7breg_$2,4,char\x7d")]
  model := "reg_$3 -> 65"
  types := .ofList [("reg_$2", "char *"), ("reg_$3", "char")]

/-- The element refers to a symbol of its own right, so it does not matter which is bound first. -/
theorem orderless_recordBuffer : recordBuffer.Orderless recordFunction := by
  let t := recordBuffer.intake recordFunction
  let rank (s : String) : Nat := if s = "reg_$3" then 1 else 0
  obtain ⟨hconsistent, hapart, hclosed, hacyclic, honce, htaken, hglobal⟩ :
      (∀ x ∈ t.definitions, ∀ y ∈ t.definitions, x.name = y.name → x = y) ∧
      (∀ x ∈ t.definitions, x.name ∉ t.parameters) ∧
      (∀ p ∈ t.readable, ∀ symbol ∈ p.2.referent?, ∀ x ∈ t.definitions, x.name ≠ symbol) ∧
      (∀ p ∈ t.readable, ∀ symbol ∈ p.2.referent?,
        symbol ∈ t.parameters → rank symbol < rank p.1) ∧
      (∀ s ∈ t.voids recordFunction, ∀ p ∈ t.readable, p.2.looks.count s ≤ 1 ∧
        ∀ q ∈ t.readable, s ∈ p.2.looks → s ∈ q.2.looks → p = q) ∧
      (∀ s ∈ t.voids recordFunction, ∀ p ∈ t.readable, p.2.symbol? = some s → p.1 ∈ t.types) ∧
      ∀ p ∈ t.readable, p.2.referent?.isSome = true →
        (recordFunction.variableType? p.2.leaf).any recordFunction.isVoid = false := by
    decide +kernel
  refine ⟨⟨hconsistent, hapart, hclosed, ⟨rank, hacyclic⟩, honce, htaken, hglobal⟩, ?_⟩
  unfold Allocation.Unambiguous
  decide +kernel

/-- The symbol of the element can as well be numbered so that it comes first. -/
theorem ofCase_recordBuffer :
    let ρ := Equiv.swap (numbered 3) (numbered 10)
    ¬KeepsSchedule ρ recordFunction recordBuffer ∧
    (ofCase recordFunction {} "foo" recordBuffer {}).1.toBool = true ∧
    Agree (fun result result' => ∃ test test', result = some test ∧ result' = some test' ∧
        Tests ρ test test')
      (ofCase recordFunction {} "foo" recordBuffer {}).1
      (ofCase recordFunction {} "foo" (Renaming.case ρ recordBuffer) {}).1 := by
  intro ρ
  have hplain : recordFunction.Plain ∧ PlainOptions {} ∧
      ∀ entry ∈ recordBuffer.types.toList, Plain entry.2.toList := by
    unfold Declarations.Plain PlainOptions
    decide +kernel
  obtain ⟨hd, ho, htypes⟩ := hplain
  refine ⟨by unfold KeepsSchedule; decide +kernel, by decide +kernel,
    ofCase_renamed hd ho (fun name type htype => ?_) (.inr orderless_recordBuffer)⟩
  exact htypes (name, type) (Std.ExtTreeMap.mem_toList_iff_getElem?_eq_some.2 htype)

/-- A buffer that gets its symbol inside the value of another. -/
def bufferInside : Case where
  parameters := .ofList [("reg_$1", "Element\x7breg_$0<int *,p>,2,int\x7d"),
    ("reg_$2", "Element\x7breg_$0,5,int\x7d")]
  model := "reg_$2 -> 7"

/-- The lines of a test, whose statements are changed by `f`. -/
def lines (f : Statement → Statement) : Except Error (Option TestFunction) → List String
  | .ok (some test) => test.definition.body.map fun s => (f s).render 2 1
  | _ => []

theorem exists_of_lines {f : Statement → Statement} {result : Except Error (Option TestFunction)}
    (h : lines f result ≠ []) :
    ∃ test, result = .ok (some test) ∧
      lines f result = (test.definition.body.map f).map (Statement.render 2 1) := by
  match result with
  | .ok (some test) => exact ⟨test, rfl, List.map_map.symm⟩
  | .ok none => exact absurd rfl h
  | .error e => exact absurd rfl h

/-- **A reference that is read before its symbol is defined** inside another value finds no storage.
So two cases that differ in their numbering only have tests with different statements. -/
theorem not_perm_bufferInside :
    let ρ := Equiv.swap (numbered 1) (numbered 2)
    ∃ test test',
      (ofCase bufferFunction {} "foo" bufferInside {}).1 = .ok (some test) ∧
      (ofCase bufferFunction {} "foo" (Renaming.case ρ bufferInside) {}).1 = .ok (some test') ∧
      ¬test'.definition.body.Perm (test.definition.body.map (statement ρ)) := by
  intro ρ
  obtain ⟨hne, hne', hnot⟩ :
      lines (statement ρ) (ofCase bufferFunction {} "foo" bufferInside {}).1 ≠ [] ∧
      lines id (ofCase bufferFunction {} "foo" (Renaming.case ρ bufferInside) {}).1 ≠ [] ∧
      ¬(lines id (ofCase bufferFunction {} "foo" (Renaming.case ρ bufferInside) {}).1).Perm
        (lines (statement ρ) (ofCase bufferFunction {} "foo" bufferInside {}).1) := by
    decide +kernel
  obtain ⟨test, heq, hlines⟩ := exists_of_lines hne
  obtain ⟨test', heq', hlines'⟩ := exists_of_lines hne'
  refine ⟨test, test', heq, heq', fun hperm => hnot ?_⟩
  rw [hlines, hlines', List.map_id]
  exact hperm.map _

end Renaming

end TestSynth
