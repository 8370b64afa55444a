import TestSynth.Command.Run
import TestSynth.Proofs.OutputPlaces

/-!
# Actions on a tree of files

What the steps of a run do to a tree of files, one lemma for each of them.

* `run_bind` : an action after another one starts from the tree that the first one leaves.
* `run_load`, `run_beside` : cases are loaded and case files are found without a change to the tree.
* `run_write` : what is written.
-/

namespace TestSynth

/-- An action on a tree of files that may fail. -/
abbrev Action (α : Type) := ExceptT Failure (StateM FileTree) α

theorem run_bind {α β : Type} (x : Action α) (f : α → Action β) (t : FileTree) :
    (x >>= f).run t = match x.run t with
      | (.ok a, t) => (f a).run t
      | (.error e, t) => (.error e, t) := by
  show (ExceptT.bindCont f (x.run t).1).run (x.run t).2 = _
  generalize x.run t = outcome
  obtain ⟨_ | _, _⟩ := outcome <;> rfl

theorem run_write (path : Path) (text : String) (t : FileTree) :
    (liftM (Files.write path text : StateM FileTree _) : Action Bool).run t =
      match t.write? path text with
      | some t' => (.ok true, t')
      | none => (.ok false, t) := by
  show (Except.ok _, _) = _
  cases t.write? path text <;> rfl

theorem run_read (path : Path) (t : FileTree) :
    (liftM (Files.read? path : StateM FileTree _) : Action _).run t = (.ok (t.read? path), t) :=
  rfl

/-- A file with cases is loaded, or the run fails, and nothing is written. -/
theorem run_load (path : Path) (t : FileTree) :
    (∃ e, (Case.load path : Action _).run t = (.error e, t)) ∨
      ∃ text cases, t.read? path = some text ∧ Case.ofFile? text = some cases ∧
        (Case.load path : Action _).run t = (.ok cases, t) := by
  rw [Case.load, readOr, run_bind, run_bind, run_read]
  cases t.read? path with
  | none => exact .inl ⟨_, rfl⟩
  | some text =>
    show (∃ e, (orFail _ (Case.ofFile? text) : Action _).run t = (.error e, t)) ∨
      ∃ text' cases, _ ∧ _ ∧ (orFail _ (Case.ofFile? text) : Action _).run t = (.ok cases, t)
    cases hcases : Case.ofFile? text with
    | none => exact .inl ⟨_, rfl⟩
    | some cases => exact .inr ⟨text, cases, rfl, hcases, rfl⟩

/-- Asking which paths are files does not change the tree. -/
theorem run_filterM (t : FileTree) (files : List CaseFile) :
    (List.filterM (fun c => Files.isFile c.path) files : StateM FileTree _) t =
      (files.filter fun c => (t.read? c.path).isSome, t) := by
  have hauxiliary (kept : List CaseFile) :
      (List.filterAuxM (fun c => Files.isFile c.path) files kept : StateM FileTree _) t =
        ((files.filter fun c => (t.read? c.path).isSome).reverse ++ kept, t) := by
    induction files generalizing kept with
    | nil => rfl
    | cons c files ih =>
      show (List.filterAuxM _ files _ : StateM FileTree _) t = _
      rw [ih, List.filter_cons]
      cases (t.read? c.path).isSome <;> simp
  show (((List.filterAuxM (fun c => Files.isFile c.path) files [] : StateM FileTree _) t).1.reverse,
    ((List.filterAuxM (fun c => Files.isFile c.path) files [] : StateM FileTree _) t).2) = _
  rw [hauxiliary, List.append_nil, List.reverse_reverse]

/-- The files of a directory that are case files of a source. -/
def CaseFile.candidates (directory : Path) (name : String) (names : List String) : List CaseFile :=
  names.filterMap fun entry => (function? name entry).map fun function =>
    ⟨directory.join ⟨entry⟩, function⟩

/-- What is found beside a source, if its directory can be listed. -/
theorem run_find (source : Path) (t : FileTree) :
    (CaseFile.find source : StateM FileTree _) t =
      ((match source.fileName? with
        | none => .ok []
        | some name =>
          if t.at? source.directory = some .directory then
            match t.names? source.directory with
            | none => .error (.unlistable source.directory)
            | some names =>
              .ok (((CaseFile.candidates source.directory name names).filter fun c =>
                (t.read? c.path).isSome).mergeSort fun a b => a.path.text ≤ b.path.text)
          else .ok []), t) := by
  unfold CaseFile.find
  cases hname : source.fileName? with
  | none => rfl
  | some name =>
    have hdecide (x y : StateM FileTree (Except CaseFile.Fault (List CaseFile))) :
        (Files.isDirectory source.directory >>= fun there => if there = true then x else y) t =
          if t.at? source.directory = some .directory then x t else y t := by
      show (if decide (t.at? source.directory = some .directory) = true then x else y) t = _
      by_cases hdirectory : t.at? source.directory = some .directory <;> simp [hdirectory]
    refine (hdecide _ _).trans ?_
    by_cases hdirectory : t.at? source.directory = some .directory
    · simp only [hdirectory, if_true]
      have hlist
          (x : Option (List String) → StateM FileTree (Except CaseFile.Fault (List CaseFile))) :
          (Files.names? source.directory >>= x) t = x (t.names? source.directory) t := rfl
      refine (hlist _).trans ?_
      cases hnames : t.names? source.directory with
      | none => rfl
      | some names =>
        have hsort (x : StateM FileTree (List CaseFile)) (files : List CaseFile)
            (hx : x t = (files, t)) : (x >>= fun found => pure (.ok
              (found.mergeSort fun a b => decide (a.path.text ≤ b.path.text)))) t =
                ((.ok (files.mergeSort fun a b => decide (a.path.text ≤ b.path.text)) :
                  Except CaseFile.Fault (List CaseFile)), t) := by
          show (Except.ok ((x t).1.mergeSort fun a b => decide (a.path.text ≤ b.path.text)),
            (x t).2) = _
          rw [hx]
        exact hsort _ _ (run_filterM t _)
    · simp only [hdirectory, if_false]
      rfl

/-- The case files beside a source are found, or the run fails, and nothing is written. -/
theorem run_beside {t : FileTree} (h : t.IsProper) (source : Path) :
    (∃ e, (CaseFile.beside source : Action _).run t = (.error e, t)) ∨
      ∃ files, (CaseFile.beside source : Action _).run t = (.ok files, t) ∧
        ∀ file ∈ files, file.IsBeside source := by
  have hrun : (CaseFile.beside source : Action _).run t =
      match (CaseFile.find source : StateM FileTree _) t with
      | (.ok files, t) => (.ok files, t)
      | (.error (.unlistable directory), t) => (.error (.directoryUnlisted directory), t) := by
    rw [CaseFile.beside, run_bind]
    have hlift (x : StateM FileTree (Except CaseFile.Fault (List CaseFile))) :
        (liftM x : Action _).run t = (.ok (x t).1, (x t).2) := rfl
    rw [hlift]
    generalize (CaseFile.find source : StateM FileTree _) t = outcome
    obtain ⟨⟨_⟩ | _, _⟩ := outcome <;> rfl
  rw [hrun, run_find]
  cases hname : source.fileName? with
  | none => exact .inr ⟨[], rfl, nofun⟩
  | some name =>
    by_cases hdirectory : t.at? source.directory = some .directory
    · simp only [hdirectory, if_true]
      cases hnames : t.names? source.directory with
      | none => exact .inl ⟨_, rfl⟩
      | some names =>
        refine .inr ⟨_, rfl, fun file hfile => ?_⟩
        rw [List.mem_mergeSort, List.mem_filter, CaseFile.candidates, List.mem_filterMap] at hfile
        obtain ⟨⟨entry, hentry, hfile⟩, -⟩ := hfile
        obtain ⟨function, hfunction, rfl⟩ := Option.map_eq_some_iff.1 hfile
        obtain rfl := CaseFile.eq_inputName hfunction
        exact ⟨name, hname, rfl, h.names? hnames hentry⟩
    · simp only [hdirectory, if_false]
      exact .inr ⟨[], rfl, nofun⟩

end TestSynth
