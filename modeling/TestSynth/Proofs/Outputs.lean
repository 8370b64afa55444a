import TestSynth.Proofs.Actions
import TestSynth.Proofs.Isolation
import Mathlib.Algebra.GroupWithZero.Nat

/-!
# Outputs of a run

A run writes the tests of each case file to a path made of the source and the function.  `Made` says
what holds at any time of a run: the tree is as it was, but for the outputs.  A case file that a run
comes to a second time, under whatever spelling, has only cases that are registered; so an output
can only be lost to an output of another function, and then the names of the sources run into each
other.

* `Command.makes_generateFile` : what can become of a case file.
* `Command.Made.output` : what one more output keeps.
* `Command.ends_generate` : what a whole run has made, however it ends.
* `Command.exists_accounts` : which outputs go to one place, and which are there at the end.
* `Command.Accounts.read?_path` : all of them are there, if no names run into each other.
-/

namespace TestSynth

/-! ### Seen cases -/

namespace Registry

theorem mem_accepted_after {r : Registry} {xs : List Digest} {y : Digest} :
    y ∈ (r.after xs).accepted ↔ y ∈ xs ∨ y ∈ r.accepted := by
  induction xs generalizing r with
  | nil => simp [after]
  | cons x xs ih => rw [after, ih, mem_accepted_register, List.mem_cons, or_assoc, or_left_comm]

end Registry

namespace TestFunction

variable {d : Declarations} {o : Options} {function : String} {r : Registry}

/-- All cases are registered, whatever becomes of them. -/
theorem registry_ofCases (cs : List Case) (r : Registry) :
    (ofCases d o function cs r).2 = r.after (cs.map (digest d function)) := by
  induction cs generalizing r with
  | nil => rfl
  | cons c cs ih =>
    have hregistry : (ofCase d o function c r).2 = (r.register (digest d function c)).2 :=
      (ofCase_spec ⟨function, c⟩ r).2
    rw [ofCases_cons, List.map_cons, Registry.after, ← hregistry]
    exact ih _

theorem ofCases_of_seen {cs : List Case} (h : ∀ c ∈ cs, digest d function c ∈ r.accepted) :
    (ofCases d o function cs r).1 = .ok [] := by
  induction cs with
  | nil => rfl
  | cons c cs ih =>
    have hseen := h c List.mem_cons_self
    have hregistry : (ofCase d o function c r).2 = r := by
      rw [(ofCase_spec ⟨function, c⟩ r).2, show (Request.call d ⟨function, c⟩).digest =
        digest d function c from rfl, Registry.register_of_mem hseen]
    have hcase : ofCase d o function c r = (.ok none, r) :=
      Prod.ext (ofCase_of_seen hseen) hregistry
    rw [ofCases_cons, hcase, ih fun c hc => h c (List.mem_cons_of_mem _ hc)]
    rfl

end TestFunction

/-! ### Outputs -/

namespace Command

/-- The tests that a run makes of one case file. -/
structure Output where
  source : Path
  file : CaseFile
  tests : List TestFunction

variable (s : Setting)

namespace Output

/-- The path that the tests are written to. -/
def path (o : Output) : Path := CaseFile.output o.source o.file.function

/-- The text that is written. -/
def text (o : Output) : String := TestFunction.renderFile s.options.indent o.tests

/-- What is printed of it. -/
def note (o : Output) : String :=
  "✓ " ++ o.path.text ++ " (" ++ toString o.tests.length ++ " tests)\n"

/-- The tree with the tests written and told of. -/
def write (o : Output) (t : FileTree) : FileTree :=
  { t.put (t.target o.path) (.file (o.text s)) with printed := t.printed ++ o.note }

end Output

variable {s}

/-- What can become of a case file: the run fails, there is nothing new in it, or there is one more
output. -/
inductive Makes (s : Setting) (source : Path) (p : Progress) (file : CaseFile) (t : FileTree) :
    Except Failure Progress × FileTree → Prop
  | fails (e : Failure) : Makes s source p file t (.error e, t)
  | silent {text : String} {cases : List Case} (hread : t.read? file.path = some text)
      (hcases : Case.ofFile? text = some cases) :
      Makes s source p file t (.ok { p with
        registry := p.registry.after (cases.map
          (TestFunction.digest s.declarations file.function)) }, t)
  | output {text : String} {cases : List Case} {o : Output} {t' : FileTree}
      (hread : t.read? file.path = some text) (hcases : Case.ofFile? text = some cases)
      (htests : (TestFunction.ofCases s.declarations s.options file.function cases p.registry).1 =
        .ok o.tests) (hsource : o.source = source) (hfile : o.file = file) (hne : o.tests ≠ [])
      (hwrite : t.write? o.path (o.text s) = some t') :
      Makes s source p file t (.ok ⟨p.registry.after (cases.map
          (TestFunction.digest s.declarations file.function)), o.path :: p.outputs,
        p.testCount + o.tests.length⟩, { t' with printed := t'.printed ++ o.note })

theorem makes_generateFile (hprint : s.printOnly = false) (source : Path) (p : Progress)
    (file : CaseFile) (t : FileTree) :
    Makes s source p file t ((s.generateFile source p file : Action Progress).run t) := by
  have hreport (shown level : LogLevel) (text : String) :
      (report shown level text : Action Unit).run t = (.ok (), t) := by
    unfold report
    split <;> rfl
  rw [Setting.generateFile, run_bind, hreport]
  simp only
  rw [run_bind]
  rcases run_load file.path t with ⟨e, hload⟩ | ⟨text, cases, hread, hcases, hload⟩
  · rw [hload]
    exact .fails e
  rw [hload]
  simp only
  have hregistry :=
    @TestFunction.registry_ofCases s.declarations s.options file.function cases p.registry
  generalize hmade : TestFunction.ofCases s.declarations s.options file.function cases p.registry =
    outcome at hregistry
  obtain ⟨made, registry⟩ := outcome
  simp only at hregistry
  subst hregistry
  match made with
  | .error cause => exact .fails _
  | .ok [] =>
    simp only
    rw [run_bind, hreport]
    exact .silent hread hcases
  | .ok (test :: tests) =>
    simp only [hprint, Bool.false_eq_true, if_false]
    rw [run_bind, run_write]
    cases hwrite : t.write? (CaseFile.output source file.function)
        (TestFunction.renderFile s.options.indent (test :: tests)) with
    | none => exact .fails _
    | some t' =>
      exact @Makes.output s source p file t text cases ⟨source, file, test :: tests⟩ t' hread hcases
        (by rw [hmade]) rfl rfl (List.cons_ne_nil _ _) hwrite

/-! ### What a run has made -/

namespace Output

theorem target_path (t : FileTree) {o : Output} (h : o.file.IsBeside o.source) :
    t.target o.path =
      CaseFile.outputName (CaseFile.stemOf o.source) o.file.function :: t.outputPlace o.source := by
  obtain ⟨name, hname, -⟩ := t.target_beside h
  exact t.target_output (Path.text_ne_of_fileName? hname) h.not_slash

theorem current_foldr_write (os : List Output) (t : FileTree) :
    (os.foldr (write s) t).current = t.current := by
  induction os with
  | nil => rfl
  | cons o os ih => exact ih

theorem node?_foldr_write_of_ne {os : List Output} {t : FileTree} {q : Place}
    (h : ∀ o ∈ os, t.target o.path ≠ q) : (os.foldr (write s) t).node? q = t.node? q := by
  induction os with
  | nil => rfl
  | cons o os ih =>
    have htarget := FileTree.target_congr (current_foldr_write (s := s) os t) o.path
    rw [List.foldr_cons, ← ih fun o' ho' => h o' (List.mem_cons_of_mem o ho')]
    refine FileTree.node?_put_of_ne _ ?_
    rw [htarget]
    exact (h o List.mem_cons_self).symm

/-- Of several outputs at one place the latest is there. -/
theorem node?_foldr_write {later earlier : List Output} {o : Output} {t : FileTree}
    (hroot : t.target o.path ≠ [])
    (h : ∀ o' ∈ later, t.target o'.path ≠ t.target o.path) :
    ((later ++ o :: earlier).foldr (write s) t).node? (t.target o.path) =
      some (.file (o.text s)) := by
  have hcurrent := current_foldr_write (s := s) (o :: earlier) t
  have hself : ((o :: earlier).foldr (write s) t).node? (t.target o.path) =
      some (.file (o.text s)) := by
    have htarget := FileTree.target_congr (current_foldr_write (s := s) earlier t) o.path
    rw [← htarget] at hroot ⊢
    exact FileTree.node?_put_self _ hroot
  rw [List.foldr_append, ← hself]
  refine node?_foldr_write_of_ne fun o' ho' => ?_
  rw [FileTree.target_congr hcurrent]
  exact h o' ho'

/-- The output belongs to a source and to a case file beside it, whose cases are all registered. -/
structure IsValid (s : Setting) (sources : List Path) (t : FileTree) (r : Registry) (o : Output) :
    Prop where
  source : o.source ∈ sources
  beside : o.file.IsBeside o.source
  tests : o.tests ≠ []
  seen : ∃ text cases, t.node? (t.target o.file.path) = some (.file text) ∧
    Case.ofFile? text = some cases ∧
      ∀ c ∈ cases, TestFunction.digest s.declarations o.file.function c ∈ r.accepted

end Output

/-- What a run has made, the latest output first: the tree is as it was, but for the outputs. -/
structure Made (s : Setting) (sources : List Path) (t : FileTree) (os : List Output) (p : Progress)
    (u : FileTree) : Prop where
  outputs : p.outputs = os.map Output.path
  testCount : p.testCount = (os.map fun o => o.tests.length).sum
  replay : u = os.foldr (Output.write s) t
  keeps : FileTree.Keeps t u
  proper : u.IsProper
  valid : ∀ o ∈ os, o.IsValid s sources t p.registry
  place : ∀ o ∈ os, u.place? o.path = some (t.target o.path)
  apart : os.Pairwise fun o o' =>
    t.target o.path = t.target o'.path → o.file.function ≠ o'.file.function

namespace Made

variable {sources : List Path} {t u : FileTree} {os : List Output} {p : Progress} {source : Path}
  {file : CaseFile} {text : String} {cases : List Case}

theorem start (h : t.IsProper) : Made s sources t [] {} t where
  outputs := rfl
  testCount := rfl
  replay := rfl
  keeps := .refl t
  proper := h
  valid := nofun
  place := nofun
  apart := .nil

theorem node?_of_read? (h : Made s sources t os p u) (hbeside : file.IsBeside source)
    (hread : u.read? file.path = some text) :
    t.node? (t.target file.path) = some (.file text) := by
  obtain ⟨q, hplace, hnode⟩ := FileTree.read?_eq_some_iff.1 hread
  obtain rfl := FileTree.place?_eq_target hplace
  rw [FileTree.target_congr h.keeps.current, h.replay, Output.node?_foldr_write_of_ne] at hnode
  · exact hnode
  · intro o ho htarget
    obtain ⟨name, -, hinput⟩ := t.target_beside hbeside
    rw [Output.target_path t (h.valid o ho).beside, hinput] at htarget
    exact CaseFile.outputName_ne_inputName (List.cons.inj htarget).1

theorem silent (h : Made s sources t os p u) (xs : List Digest) :
    Made s sources t os { p with registry := p.registry.after xs } u where
  outputs := h.outputs
  testCount := h.testCount
  replay := h.replay
  keeps := h.keeps
  proper := h.proper
  valid o ho := by
    obtain ⟨hsource, hbeside, htests, text, cases, hnode, hcases, hseen⟩ := h.valid o ho
    exact ⟨hsource, hbeside, htests, text, cases, hnode, hcases,
      fun c hc => Registry.mem_accepted_after.2 (.inr (hseen c hc))⟩
  place := h.place
  apart := h.apart

theorem output (h : Made s sources t os p u) {o : Output} {t' : FileTree}
    (hsource : o.source ∈ sources) (hbeside : o.file.IsBeside o.source) (hne : o.tests ≠ [])
    (hread : u.read? o.file.path = some text) (hcases : Case.ofFile? text = some cases)
    (htests : (TestFunction.ofCases s.declarations s.options o.file.function cases p.registry).1 =
      .ok o.tests) (hwrite : u.write? o.path (o.text s) = some t') :
    Made s sources t (o :: os)
      ⟨p.registry.after (cases.map (TestFunction.digest s.declarations o.file.function)),
        o.path :: p.outputs, p.testCount + o.tests.length⟩
      { t' with printed := t'.printed ++ o.note } := by
  obtain ⟨rfl, hfile, hplace, name, up, htarget, hslash⟩ := FileTree.write?_eq_some hwrite
  have hnode := h.node?_of_read? hbeside hread
  have hkeeps : FileTree.Keeps u
      { u.put (u.target o.path) (.file (o.text s)) with printed := u.printed ++ o.note } :=
    (FileTree.Keeps.put hfile _).trans (.printed _ _)
  constructor
  case outputs => rw [h.outputs, List.map_cons]
  case testCount => rw [h.testCount, List.map_cons, List.sum_cons, Nat.add_comm]
  case replay =>
    rw [List.foldr_cons, ← h.replay]
    rfl
  case keeps => exact h.keeps.trans hkeeps
  case proper =>
    rw [htarget]
    exact h.proper.put hslash _
  case valid =>
    intro o' ho'
    rcases List.mem_cons.1 ho' with rfl | ho'
    · exact ⟨hsource, hbeside, hne, text, cases, hnode, hcases, fun c hc =>
        Registry.mem_accepted_after.2 (.inl (List.mem_map_of_mem hc))⟩
    · exact (h.silent _).valid o' ho'
  case place =>
    intro o' ho'
    rcases List.mem_cons.1 ho' with rfl | ho'
    · rw [← FileTree.target_congr h.keeps.current]
      exact (FileTree.Keeps.printed _ _).place? hplace
    · exact hkeeps.place? (h.place o' ho')
  case apart =>
    refine List.pairwise_cons.2 ⟨fun o' ho' heq hfunction => hne ?_, h.apart⟩
    -- the cases of an earlier output at the same place are the same, and they were all seen
    obtain ⟨-, hbeside', -, text', cases', hnode', hcases', hseen⟩ := h.valid o' ho'
    rw [FileTree.target_eq_of_output hbeside hbeside' hfunction heq, hnode'] at hnode
    cases hnode
    rw [hcases'] at hcases
    cases hcases
    rw [hfunction] at htests
    rw [TestFunction.ofCases_of_seen hseen] at htests
    exact (Except.ok.inj htests).symm

end Made

/-! ### Runs -/

/-- However an action ends, there is a run that ends in its tree and, if it succeeds, in its
result. -/
def Ends (s : Setting) (sources : List Path) (t : FileTree)
    (outcome : Except Failure Progress × FileTree) : Prop :=
  ∃ os p, Made s sources t os p outcome.2 ∧ ∀ p', outcome.1 = .ok p' → p' = p

section

variable {sources : List Path} {t u : FileTree} {os : List Output} {p : Progress}

theorem Made.ends (h : Made s sources t os p u) : Ends s sources t (.ok p, u) :=
  ⟨os, p, h, fun _ heq => (Except.ok.inj heq).symm⟩

theorem Made.fails (h : Made s sources t os p u) (e : Failure) : Ends s sources t (.error e, u) :=
  ⟨os, p, h, nofun⟩

theorem ends_foldlM {α : Type} {f : Progress → α → Action Progress} {xs : List α}
    (hstep : ∀ x ∈ xs, ∀ os p u, Made s sources t os p u → Ends s sources t ((f p x).run u))
    (h : Made s sources t os p u) : Ends s sources t ((xs.foldlM f p).run u) := by
  induction xs generalizing os p u with
  | nil => exact h.ends
  | cons x xs ih =>
    obtain ⟨os', p', hmade, hp⟩ := hstep x List.mem_cons_self os p u h
    rw [List.foldlM_cons, run_bind]
    generalize (f p x).run u = outcome at hmade hp
    obtain ⟨result, u'⟩ := outcome
    cases result with
    | error e => exact hmade.fails e
    | ok p'' =>
      obtain rfl := hp p'' rfl
      exact ih (fun y hy => hstep y (List.mem_cons_of_mem x hy)) hmade

theorem ends_generateSource (hprint : s.printOnly = false) {source : Path}
    (hsource : source ∈ sources) (h : Made s sources t os p u) :
    Ends s sources t ((s.generateSource p source : Action Progress).run u) := by
  rw [Setting.generateSource, run_bind]
  rcases run_beside h.proper source with ⟨e, hbeside⟩ | ⟨files, hbeside, hfiles⟩
  · rw [hbeside]
    exact h.fails e
  rw [hbeside]
  refine ends_foldlM (fun file hfile os p u h => ?_) h
  have hmakes := makes_generateFile hprint source p file u
  generalize (s.generateFile source p file : Action Progress).run u = outcome at hmakes
  cases hmakes with
  | fails e => exact h.fails e
  | silent hread hcases => exact (h.silent _).ends
  | output hread hcases htests hsource' hfile' hne hwrite =>
    subst hsource' hfile'
    exact (h.output hsource (hfiles _ hfile) hne hread hcases htests hwrite).ends

theorem ends_generate (hprint : s.printOnly = false) (sources : List Path) (ht : t.IsProper) :
    Ends s sources t ((s.generate sources : Action Progress).run t) :=
  ends_foldlM (fun _ hsource _ _ _ h => ends_generateSource hprint hsource h) (.start ht)

/-- What there is to say of the outputs of a run, the latest first. -/
structure Accounts (s : Setting) (sources : List Path) (t : FileTree)
    (outcome : Except Failure Progress × FileTree) (outputs : List Output) : Prop where
  /-- If the run succeeds, it counts them all. -/
  counted : ∀ p, outcome.1 = .ok p → p.outputs = outputs.map Output.path ∧
    p.testCount = (outputs.map fun o => o.tests.length).sum
  /-- They are all that happens to the tree. -/
  written : outcome.2 = outputs.foldr (Output.write s) t
  /-- Each has tests of a case file beside a source. -/
  owned : ∀ o ∈ outputs, o.source ∈ sources ∧ o.file.IsBeside o.source ∧ o.tests ≠ []
  /-- Two of them go to one place exactly if their sources lie at one place and are named so that
  one goes on as the function of the other. -/
  clash : outputs.Pairwise fun o o' => t.target o.path = t.target o'.path ↔
    t.outputPlace o.source = t.outputPlace o'.source ∧
      (CaseFile.Clash (CaseFile.stemOf o.source) o.file.function
          (CaseFile.stemOf o'.source) o'.file.function ∨
        CaseFile.Clash (CaseFile.stemOf o'.source) o'.file.function
          (CaseFile.stemOf o.source) o.file.function)
  /-- Each is still there at the end unless a later one went to its place. -/
  kept : ∀ later o earlier, outputs = later ++ o :: earlier →
    (∀ o' ∈ later, t.target o'.path ≠ t.target o.path) →
      outcome.2.read? o.path = some (o.text s)

theorem target_path_eq_iff {o o' : Output} (h : o.file.IsBeside o.source)
    (h' : o'.file.IsBeside o'.source) :
    t.target o.path = t.target o'.path ↔
      CaseFile.outputName (CaseFile.stemOf o.source) o.file.function =
          CaseFile.outputName (CaseFile.stemOf o'.source) o'.file.function ∧
        t.outputPlace o.source = t.outputPlace o'.source := by
  rw [Output.target_path t h, Output.target_path t h', List.cons.injEq]

/-- **Outputs get lost only where names run into each other.**  However a run ends, whatever the
sources, the declarations and the files are: its outputs are all that happens to the tree, two of
them go to one place only if the name of one source is that of another one in the same place with
`_test` behind it, alone or in front of more, and the functions fit; all others are still there. -/
theorem exists_accounts (s : Setting) (hprint : s.printOnly = false) (sources : List Path)
    (t : FileTree) (ht : t.IsProper) :
    ∃ outputs, Accounts s sources t ((s.generate sources : Action Progress).run t) outputs := by
  obtain ⟨os, p, h, hp⟩ := ends_generate hprint sources ht
  refine ⟨os, fun p' hp' => ?_, h.replay, fun o ho => ?_, ?_, fun later o earlier hos hlater => ?_⟩
  · obtain rfl := hp p' hp'
    exact ⟨h.outputs, h.testCount⟩
  · obtain ⟨hsource, hbeside, htests, -⟩ := h.valid o ho
    exact ⟨hsource, hbeside, htests⟩
  · refine h.apart.imp_of_mem fun {o o'} ho ho' hapart => ?_
    have htarget := target_path_eq_iff (t := t) (h.valid o ho).beside (h.valid o' ho').beside
    rw [CaseFile.outputName_eq_iff] at htarget
    constructor
    · intro heq
      obtain ⟨⟨-, hfunction⟩ | hclash, hplace⟩ := htarget.1 heq
      · exact absurd hfunction (hapart heq)
      · exact ⟨hplace, hclash⟩
    · rintro ⟨hplace, hclash⟩
      exact htarget.2 ⟨.inr hclash, hplace⟩
  · subst hos
    have ho : o ∈ later ++ o :: earlier := List.mem_append_right later List.mem_cons_self
    refine FileTree.read?_eq_some_iff.2 ⟨_, h.place o ho, ?_⟩
    have hroot : t.target o.path ≠ [] := by
      rw [Output.target_path t (h.valid o ho).beside]
      exact List.cons_ne_nil _ _
    rw [h.replay]
    exact Output.node?_foldr_write hroot hlater

/-- **No output gets lost** if no source has the name of another one at the same place with `_test`
behind it, alone or in front of more. -/
theorem Accounts.read?_path {outcome : Except Failure Progress × FileTree} {outputs : List Output}
    (h : Accounts s sources t outcome outputs)
    (hstems : ∀ source ∈ sources, ∀ source' ∈ sources,
      t.outputPlace source = t.outputPlace source' →
        ∀ x, CaseFile.stemOf source' ≠ CaseFile.stemOf source ++ "_test" ∧
          CaseFile.stemOf source' ≠ CaseFile.stemOf source ++ "_test_" ++ x)
    {o : Output} (ho : o ∈ outputs) : outcome.2.read? o.path = some (o.text s) := by
  obtain ⟨later, earlier, rfl⟩ := List.append_of_mem ho
  refine h.kept later o earlier rfl fun o' ho' htarget => ?_
  have hmem : o' ∈ later ++ o :: earlier := List.mem_append_left _ ho'
  have hclash := (List.pairwise_append.1 h.clash).2.2 o' ho' o List.mem_cons_self
  obtain ⟨hplace, hclash⟩ := hclash.1 htarget
  have hsource := (h.owned o ho).1
  have hsource' := (h.owned o' hmem).1
  rcases hclash with (⟨hstem, -⟩ | ⟨x, hstem, -⟩) | (⟨hstem, -⟩ | ⟨x, hstem, -⟩)
  · exact (hstems _ hsource' _ hsource hplace "").1 hstem
  · exact (hstems _ hsource' _ hsource hplace x).2 hstem
  · exact (hstems _ hsource _ hsource' hplace.symm "").1 hstem
  · exact (hstems _ hsource _ hsource' hplace.symm x).2 hstem

end

/-! ### A clash -/

/-- Two functions without parameters. -/
def twoFunctions : Setting where
  declarations := { functions := ((∅ : Table (List TypedName)).insert "f" []).insert "test_f" [] }
  options := {}
  printOnly := false
  level := .info

/-- One case file, which lies beside the sources `a` and `a_test`. -/
def sharedCases : FileTree where
  nodes := [(["a_test_f.json"], .file "[\x7b\x7d]")]

theorem isProper_sharedCases : sharedCases.IsProper := by
  intro name up node hentry
  obtain ⟨⟨rfl, rfl⟩, rfl⟩ : (name = "a_test_f.json" ∧ up = []) ∧ node = .file "[\x7b\x7d]" := by
    simpa [sharedCases] using hentry
  decide

/-- The run of both sources over the one case file. -/
def sharedRun : Except Failure Progress × FileTree :=
  (twoFunctions.generate [⟨"a"⟩, ⟨"a_test"⟩] : Action Progress).run sharedCases

theorem outputs_sharedRun : ∃ p, sharedRun.1 = .ok p ∧
    p.outputs = [⟨"a_test_test_f.c"⟩, ⟨"a_test_test_f.c"⟩] := by
  have houtputs : sharedRun.1.toOption.map Progress.outputs =
      some [⟨"a_test_test_f.c"⟩, ⟨"a_test_test_f.c"⟩] := by decide +kernel
  match h : sharedRun.1 with
  | .error e =>
    rw [h] at houtputs
    cases houtputs
  | .ok p =>
    rw [h] at houtputs
    exact ⟨p, rfl, Option.some.inj houtputs⟩

/-- The later one of two outputs at one place is there at the end. -/
theorem exists_accounts_sharedCases :
    twoFunctions.printOnly = false ∧ sharedCases.IsProper ∧
      ∃ later earlier, Accounts twoFunctions [⟨"a"⟩, ⟨"a_test"⟩] sharedCases sharedRun
          [later, earlier] ∧
        later.path = ⟨"a_test_test_f.c"⟩ ∧ earlier.path = ⟨"a_test_test_f.c"⟩ ∧
        sharedRun.2.read? ⟨"a_test_test_f.c"⟩ = some (later.text twoFunctions) ∧
        later.text twoFunctions = "void test_f_2()\n\x7b\n  f();\n  myfree();\n\x7d\n" := by
  obtain ⟨outputs, h⟩ := exists_accounts twoFunctions rfl [⟨"a"⟩, ⟨"a_test"⟩] sharedCases
    isProper_sharedCases
  obtain ⟨p, hok, houtputs⟩ := outputs_sharedRun
  have hpaths := (h.counted p hok).1
  rw [houtputs] at hpaths
  obtain ⟨later, rest, rfl, hlater, hrest⟩ := List.map_eq_cons_iff.1 hpaths.symm
  obtain ⟨earlier, rest, rfl, hearlier, hnil⟩ := List.map_eq_cons_iff.1 hrest
  obtain rfl := List.map_eq_nil_iff.1 hnil
  have hkept : sharedRun.2.read? ⟨"a_test_test_f.c"⟩ = some (later.text twoFunctions) :=
    hlater ▸ h.kept [] later [earlier] rfl nofun
  have htext : sharedRun.2.read? ⟨"a_test_test_f.c"⟩ =
      some "void test_f_2()\n\x7b\n  f();\n  myfree();\n\x7d\n" := by decide +kernel
  exact ⟨rfl, isProper_sharedCases, later, earlier, h, hlater, hearlier, hkept,
    Option.some.inj (hkept.symm.trans htext)⟩

/-- A run that succeeds writes each of its outputs to a path of its own. -/
def KeepsApart (s : Setting) (sources : List Path) (t : FileTree) : Prop :=
  ∀ p, ((s.generate sources : Action Progress).run t).1 = .ok p → p.outputs.Nodup

/-- The case file is one of the function `test_f` of the source `a`, and one of the function `f` of
the source `a_test`: a test of each is written, and the second one takes the place of the first. -/
theorem not_keepsApart_sharedCases :
    ¬KeepsApart twoFunctions [⟨"a"⟩, ⟨"a_test"⟩] sharedCases := by
  intro hapart
  obtain ⟨p, hok, houtputs⟩ := outputs_sharedRun
  have hnodup := hapart p hok
  rw [houtputs] at hnodup
  exact absurd hnodup (by decide)

end Command

end TestSynth
