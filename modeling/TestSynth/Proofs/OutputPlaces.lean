import TestSynth.Proofs.Writes

/-!
# Names and places of outputs

The cases of a function lie beside its source, in a file named after both, and so do its tests.  Two
marks separate the parts of the names, and nothing keeps a mark from occurring in a part: so two
outputs can have one name.

* `CaseFile.outputName_eq_iff` : when they do.
* `FileTree.target_output`, `FileTree.target_beside` : where the outputs and the case files of a
  source are, however the source is spelled.
* `FileTree.target_eq_of_output` : outputs of one function at one place are made of case files at
  one place.
-/

namespace TestSynth

/-! ### Names -/

namespace CaseFile

/-- The name of the file with the cases of a function. -/
def inputName (source function : String) : String := source ++ "_" ++ function ++ ".json"

theorem eq_inputName {source entry function : String} (h : function? source entry = some function) :
    entry = inputName source function := by
  unfold function? at h
  obtain ⟨stem, hstem, h⟩ := Option.bind_eq_some_iff.1 h
  obtain ⟨behind, hbehind, h⟩ := Option.bind_eq_some_iff.1 h
  have hfunction : function.toList = behind := by
    split at h
    · cases h
    · cases h
      exact String.toList_ofList
  obtain ⟨rest, hrest, hreverse⟩ := Option.map_eq_some_iff.1 hstem
  have hentry : entry.toList = stem ++ ".json".toList := by
    have := congrArg List.reverse (Text.after?_eq_some.1 hrest)
    rwa [List.reverse_reverse, List.reverse_append, List.reverse_reverse, hreverse] at this
  rw [← String.toList_inj, hentry, Text.after?_eq_some.1 hbehind, ← hfunction]
  simp only [inputName, String.toList_append, List.append_assoc]

theorem outputName_ne_inputName {stem function source function' : String} :
    outputName stem function ≠ inputName source function' := by
  intro h
  have hlast := congrArg (fun name => name.toList.getLast?) h
  have hc : ".c".toList.getLast? = some 'c' := rfl
  have hjson : ".json".toList.getLast? = some 'n' := rfl
  simp only [outputName, inputName, String.toList_append, List.getLast?_append, hc, hjson,
    Option.some_or] at hlast
  exact absurd (Option.some.inj hlast) (by decide)

/-- The second source is named so that an output of it has the name of an output of the first. -/
def Clash (stem function stem' function' : String) : Prop :=
  stem' = stem ++ "_test" ∧ function = "test_" ++ function' ∨
    ∃ x, stem' = stem ++ "_test_" ++ x ∧ function = x ++ "_test_" ++ function'

theorem Clash.outputName {stem function stem' function' : String}
    (h : Clash stem function stem' function') :
    outputName stem function = outputName stem' function' := by
  rcases h with ⟨rfl, rfl⟩ | ⟨x, rfl, rfl⟩
  · rw [← String.toList_inj]
    simp only [CaseFile.outputName, String.toList_append, List.append_assoc]
    rfl
  · simp only [CaseFile.outputName, String.append_assoc]

/-- Where a mark is read in two ways, the texts in front of it differ by a part of the mark that is
like its end, or by a whole mark and what follows. -/
theorem mark_split {m f f' : List Char} (hm : m ≠ [])
    (h : "_test_".toList ++ f = m ++ ("_test_".toList ++ f')) :
    m = "_test".toList ∧ f = "test_".toList ++ f' ∨
      ∃ x, m = "_test_".toList ++ x ∧ f = x ++ ("_test_".toList ++ f') := by
  have hmark : "_test_".toList = ['_', 't', 'e', 's', 't', '_'] := rfl
  rcases List.append_eq_append_iff.1 h with ⟨x, hm, hf⟩ | ⟨x, hx, hf⟩
  · exact .inr ⟨x, hm, hf⟩
  · -- the rest of the mark begins like the mark, or there is none
    rw [hmark] at hx hf
    simp only [List.cons_eq_append_iff, List.nil_eq, List.append_eq_nil_iff] at hx
    rcases hx with ⟨rfl, -⟩ | ⟨m₁, rfl, hx⟩
    · exact absurd rfl hm
    rcases hx with ⟨rfl, rfl⟩ | ⟨m₂, rfl, hx⟩
    · cases hf
    rcases hx with ⟨rfl, rfl⟩ | ⟨m₃, rfl, hx⟩
    · cases hf
    rcases hx with ⟨rfl, rfl⟩ | ⟨m₄, rfl, hx⟩
    · cases hf
    rcases hx with ⟨rfl, rfl⟩ | ⟨m₅, rfl, hx⟩
    · cases hf
    rcases hx with ⟨rfl, rfl⟩ | ⟨m₆, rfl, rfl, rfl⟩
    · exact .inl ⟨rfl, (List.cons.inj hf).2.symm⟩
    · exact .inr ⟨[], rfl, hf.symm⟩

/-- Of two outputs with one name, the stem that is longer goes on as the function of the other. -/
theorem clash_of_append {stem function stem' function' : String} {m : List Char}
    (hstem : stem'.toList = stem.toList ++ m)
    (h : "_test_".toList ++ function.toList = m ++ ("_test_".toList ++ function'.toList)) :
    stem = stem' ∧ function = function' ∨ Clash stem function stem' function' := by
  by_cases hm : m = []
  · subst hm
    rw [List.append_nil] at hstem
    exact .inl ⟨String.toList_inj.1 hstem.symm, String.toList_inj.1 (List.append_cancel_left h)⟩
  · refine .inr ((mark_split hm h).imp (fun ⟨hm, hf⟩ => ?_)
      fun ⟨x, hm, hf⟩ => ⟨String.ofList x, ?_⟩)
    all_goals
      simp only [← String.toList_inj, String.toList_append, String.toList_ofList, hstem, hm, hf,
        List.append_assoc, and_self]

theorem outputName_eq_iff {stem function stem' function' : String} :
    outputName stem function = outputName stem' function' ↔
      stem = stem' ∧ function = function' ∨ Clash stem function stem' function' ∨
        Clash stem' function' stem function := by
  constructor
  · intro h
    have hlist := congrArg String.toList h
    rw [toList_outputName, toList_outputName] at hlist
    simp only [← List.append_assoc] at hlist
    have hnames := List.append_cancel_right hlist
    rw [List.append_assoc, List.append_assoc] at hnames
    rcases List.append_eq_append_iff.1 hnames with ⟨m, hstem, hm⟩ | ⟨m, hstem, hm⟩
    · exact (clash_of_append hstem hm).imp_right .inl
    · exact (clash_of_append hstem hm).imp (fun ⟨hstem, hf⟩ => ⟨hstem.symm, hf.symm⟩) .inr
  · rintro (⟨rfl, rfl⟩ | h | h)
    · rfl
    · exact h.outputName
    · exact h.outputName.symm

end CaseFile

/-- The case file lies beside the source, in a file named after both. -/
def CaseFile.IsBeside (file : CaseFile) (source : Path) : Prop :=
  ∃ name, source.fileName? = some name ∧
    file.path = source.directory.join ⟨inputName name file.function⟩ ∧
      '/' ∉ (inputName name file.function).toList

theorem CaseFile.IsBeside.not_slash {file : CaseFile} {source : Path} (h : file.IsBeside source) :
    '/' ∉ file.function.toList := by
  obtain ⟨name, -, -, hslash⟩ := h
  intro hmem
  refine hslash ?_
  simp only [CaseFile.inputName, String.toList_append, List.mem_append]
  exact .inl (.inr hmem)

/-! ### Places -/

namespace FileTree

variable {t t' : FileTree} {source : Path} {function : String}

theorem target_congr (h : t'.current = t.current) (p : Path) : t'.target p = t.target p := by
  rw [target, target, start, start, h]

/-- The place of the part of a source up to its last slash: as a rule, that of its directory. -/
def outputPlace (t : FileTree) (source : Path) : Place :=
  reach (t.start source) (Path.stepsOf (Path.folderOf source.text.toList))

theorem target_output (t : FileTree) (hsource : source.text ≠ "")
    (hfunction : '/' ∉ function.toList) :
    t.target (CaseFile.output source function) =
      CaseFile.outputName (CaseFile.stemOf source) function :: t.outputPlace source := by
  rw [target, start, CaseFile.isAbsolute_output hsource, CaseFile.steps_output source hfunction,
    reach_append]
  rfl

/-- What a source's last slash has behind it is its name, or it says nothing. -/
theorem outputPlace_cases (t : FileTree) {name : String} (h : source.fileName? = some name) :
    (Path.component? (Path.lastOf source.text.toList) = none ∧
        t.outputPlace source = name :: t.target source.directory) ∨
      (Path.component? (Path.lastOf source.text.toList) ≠ none ∧ CaseFile.stemOf source = name ∧
        t.outputPlace source = t.target source.directory) := by
  obtain ⟨hsteps, habsolute, -⟩ := Path.steps_directory h
  have hstart : t.start source.directory = t.start source := by rw [start, start, habsolute]
  rw [Path.steps, Path.stepsOf_eq] at hsteps
  rw [target, outputPlace, hstart]
  cases hlast : Path.component? (Path.lastOf source.text.toList) with
  | none =>
    rw [hlast, Option.toList_none, List.append_nil] at hsteps
    rw [hsteps, reach_append]
    exact .inl ⟨rfl, rfl⟩
  | some step =>
    rw [hlast, Option.toList_some] at hsteps
    have hfolder := List.append_inj_left' hsteps rfl
    obtain rfl : step = .name name := List.singleton_inj.1 (List.append_inj_right' hsteps rfl)
    refine .inr ⟨Option.some_ne_none _, ?_, by rw [hfolder]⟩
    rw [CaseFile.stemOf, ← Path.toList_of_component? hlast, String.ofList_toList]

theorem target_beside (t : FileTree) {file : CaseFile} (h : file.IsBeside source) :
    ∃ name, source.fileName? = some name ∧ t.target file.path =
      CaseFile.inputName name file.function :: t.target source.directory := by
  obtain ⟨name, hname, hpath, hslash⟩ := h
  obtain ⟨-, -, hdirectory⟩ := Path.steps_directory hname
  obtain ⟨hsteps, habsolute⟩ :=
    @Path.steps_join source.directory ⟨CaseFile.inputName name file.function⟩ hdirectory hslash
  have hlength : 2 < (CaseFile.inputName name file.function).toList.length := by
    rw [CaseFile.inputName, String.toList_append, List.length_append]
    have : ".json".toList.length = 5 := rfl
    omega
  have hcomponent : Path.component? (CaseFile.inputName name file.function).toList =
      some (.name (CaseFile.inputName name file.function)) := Path.component?_of_two_lt hlength
  refine ⟨name, hname, ?_⟩
  rw [hpath, target, hsteps, hcomponent, start, habsolute, reach_append]
  rfl

/-- **The same output has the same cases.**  Two case files of one function whose outputs go to one
place are themselves at one place. -/
theorem target_eq_of_output {source' : Path} {file file' : CaseFile} (h : file.IsBeside source)
    (h' : file'.IsBeside source') (hfunction : file.function = file'.function)
    (htarget : t.target (CaseFile.output source file.function) =
      t.target (CaseFile.output source' file'.function)) :
    t.target file.path = t.target file'.path := by
  obtain ⟨name, hname, hfile⟩ := t.target_beside h
  obtain ⟨name', hname', hfile'⟩ := t.target_beside h'
  rw [t.target_output (Path.text_ne_of_fileName? hname) h.not_slash,
    t.target_output (Path.text_ne_of_fileName? hname') h'.not_slash] at htarget
  obtain ⟨houtput, hplace⟩ := List.cons.inj htarget
  have hlast : Path.lastOf source.text.toList = Path.lastOf source'.text.toList := by
    have hlist := congrArg String.toList houtput
    rw [CaseFile.toList_outputName, CaseFile.toList_outputName, hfunction] at hlist
    exact String.ofList_inj.1 (String.toList_inj.1 (List.append_cancel_right hlist))
  rw [hfile, hfile', hfunction]
  rcases t.outputPlace_cases hname with ⟨hidle, heq⟩ | ⟨hnamed, hstem, heq⟩ <;>
    rcases t.outputPlace_cases hname' with ⟨hidle', heq'⟩ | ⟨hnamed', hstem', heq'⟩
  · rw [heq, heq'] at hplace
    obtain ⟨rfl, hdirectory⟩ := List.cons.inj hplace
    rw [hdirectory]
  · exact absurd (hlast ▸ hidle) hnamed'
  · exact absurd (hlast ▸ hidle') hnamed
  · rw [heq, heq'] at hplace
    rw [← hstem, ← hstem', CaseFile.stemOf, CaseFile.stemOf, hlast, hplace]

end FileTree

end TestSynth
