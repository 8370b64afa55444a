import TestSynth.CaseFiles
import Mathlib.Data.List.TakeWhile

/-!
# Steps of a path

What a path leads to depends on where it begins and on its steps, the parts between slashes that say
something.

* `Path.steps_directory` : a file is one step below its directory.
* `Path.steps_join` : so is what is joined to a directory.
* `CaseFile.steps_output` : the tests of a function are one step below the part of the path up to
  the last slash, whatever stands behind that slash.
-/

namespace TestSynth

namespace Path

/-- The parts of a text that say something. -/
def stepsOf (s : List Char) : List Component := (parts s).filterMap component?

/-- The parts of a path that say something. -/
def steps (p : Path) : List Component := stepsOf p.text.toList

/-! ### Parts -/

theorem parts_eq_pieces (s : List Char) : parts s = Text.pieces (· == '/') s := by
  induction s with
  | nil => rfl
  | cons c s ih =>
    rw [parts, ih]
    obtain ⟨p, ps, hs⟩ : ∃ p ps, Text.pieces (· == '/') s = p :: ps :=
      List.exists_cons_of_ne_nil (Text.pieces_ne_nil s)
    by_cases hc : c = '/'
    · rw [Text.pieces_cons_of_sep (by simpa using hc), hs]
      exact if_pos hc
    · rw [Text.pieces_cons_of_not_sep (by simpa using hc) hs, hs]
      exact if_neg hc

theorem parts_append_slash (s t : List Char) : parts (s ++ '/' :: t) = parts s ++ parts t := by
  rw [parts_eq_pieces, parts_eq_pieces, parts_eq_pieces]
  exact Text.pieces_append_sep rfl s t

theorem parts_of_not_slash {s : List Char} (h : '/' ∉ s) : parts s = [s] := by
  rw [parts_eq_pieces]
  refine Text.pieces_of_not_sep fun c hc => ?_
  rw [beq_eq_false_iff_ne]
  rintro rfl
  exact h hc

theorem not_slash_of_mem_parts {s part : List Char} (h : part ∈ parts s) : '/' ∉ part := by
  induction s generalizing part with
  | nil =>
    rw [List.mem_singleton.1 h]
    exact List.not_mem_nil
  | cons c s ih =>
    rw [parts] at h
    split at h
    · next hnil => exact absurd hnil (by rw [parts_eq_pieces]; exact Text.pieces_ne_nil s)
    · next p ps hs =>
      have hp : '/' ∉ p := ih (by rw [hs]; exact List.mem_cons_self)
      have hps {q : List Char} (hq : q ∈ ps) : '/' ∉ q :=
        ih (by rw [hs]; exact List.mem_cons_of_mem p hq)
      split at h
      · rcases List.mem_cons.1 h with rfl | h
        · exact List.not_mem_nil
        · rcases List.mem_cons.1 h with rfl | h
          · exact hp
          · exact hps h
      · next hc =>
        rcases List.mem_cons.1 h with rfl | h
        · exact List.not_mem_cons_of_ne_of_not_mem (Ne.symm hc) hp
        · exact hps h

/-- The text is empty or ends in a slash. -/
def IsFolder (s : List Char) : Prop := s = [] ∨ ∃ front, s = front ++ ['/']

theorem parts_folder_append {folder last : List Char} (hfolder : IsFolder folder)
    (hlast : '/' ∉ last) : parts (folder ++ last) = (parts folder).dropLast ++ [last] := by
  rcases hfolder with rfl | ⟨front, rfl⟩
  · exact parts_of_not_slash hlast
  · rw [List.append_assoc, List.singleton_append, parts_append_slash, parts_append_slash,
      parts_of_not_slash hlast]
    exact congrArg (· ++ [last]) (List.dropLast_concat).symm

theorem stepsOf_folder {folder : List Char} (h : IsFolder folder) :
    stepsOf folder = (parts folder).dropLast.filterMap component? := by
  have hparts : parts (folder ++ []) = (parts folder).dropLast ++ [[]] :=
    parts_folder_append h List.not_mem_nil
  rw [List.append_nil] at hparts
  rw [stepsOf, hparts, List.filterMap_append, List.dropLast_concat]
  exact List.append_nil _

theorem stepsOf_append_slash (s : List Char) : stepsOf (s ++ ['/']) = stepsOf s := by
  rw [stepsOf, parts_append_slash, List.filterMap_append]
  exact List.append_nil _

theorem stepsOf_folder_append {folder last : List Char} (hfolder : IsFolder folder)
    (hlast : '/' ∉ last) :
    stepsOf (folder ++ last) = stepsOf folder ++ (component? last).toList := by
  rw [stepsOf, parts_folder_append hfolder hlast, List.filterMap_append, stepsOf_folder hfolder]
  cases h : component? last <;> simp [h]

/-! ### The last part -/

/-- The text up to the last slash. -/
def folderOf (s : List Char) : List Char := (s.reverse.dropWhile (· != '/')).reverse

/-- The text behind the last slash. -/
def lastOf (s : List Char) : List Char := (s.reverse.takeWhile (· != '/')).reverse

theorem folderOf_append_lastOf (s : List Char) : folderOf s ++ lastOf s = s := by
  rw [folderOf, lastOf, ← List.reverse_append, List.takeWhile_append_dropWhile,
    List.reverse_reverse]

theorem isFolder_folderOf (s : List Char) : IsFolder (folderOf s) := by
  rw [folderOf]
  cases h : s.reverse.dropWhile (· != '/') with
  | nil => exact .inl rfl
  | cons c r =>
    have hc := List.head?_dropWhile_not (· != '/') s.reverse
    rw [h] at hc
    obtain rfl : c = '/' := by simpa using hc
    exact .inr ⟨r.reverse, List.reverse_cons⟩

theorem not_slash_lastOf (s : List Char) : '/' ∉ lastOf s := by
  intro h
  have := List.mem_takeWhile_imp (List.mem_reverse.1 h)
  cases this

theorem stepsOf_eq (s : List Char) :
    stepsOf s = stepsOf (folderOf s) ++ (component? (lastOf s)).toList := by
  rw [← stepsOf_folder_append (isFolder_folderOf s) (not_slash_lastOf s), folderOf_append_lastOf]

/-! ### Names -/

theorem component?_of_ne {part : List Char} (hnil : part ≠ []) (hdot : part ≠ ['.'])
    (hdots : part ≠ ['.', '.']) : component? part = some (.name (String.ofList part)) := by
  rw [component?, if_neg (by simp [hnil, hdot]), if_neg hdots]

theorem component?_of_two_lt {name : String} (h : 2 < name.toList.length) :
    component? name.toList = some (.name name) := by
  rw [component?_of_ne, String.ofList_toList]
  all_goals
    intro heq
    rw [heq] at h
    exact absurd h (by decide)

theorem component?_eq_none_iff {part : List Char} :
    component? part = none ↔ part = [] ∨ part = ['.'] := by
  rw [component?]
  split
  · next h => simpa using h
  · next h => split <;> simp_all

theorem toList_of_component? {part : List Char} {name : String}
    (h : component? part = some (.name name)) : name.toList = part := by
  rw [component?] at h
  split at h
  · cases h
  · split at h
    · cases h
    · cases h
      exact String.toList_ofList

theorem steps_of_fileName? {p : Path} {name : String} (h : p.fileName? = some name) :
    p.steps.getLast? = some (.name name) := by
  unfold fileName? at h
  split at h
  · next text hlast =>
    cases h
    simp only [components, List.getLast?_append] at hlast
    rw [steps, stepsOf]
    cases hsteps : ((parts p.text.toList).filterMap component?).getLast? with
    | some c => rwa [hsteps] at hlast
    | none =>
      rw [hsteps, Option.none_or] at hlast
      split at hlast <;> cases hlast
  · cases h

theorem text_ne_of_fileName? {p : Path} {name : String} (h : p.fileName? = some name) :
    p.text ≠ "" := by
  intro hempty
  have := steps_of_fileName? h
  rw [steps, hempty] at this
  cases this

/-! ### Directories -/

theorem stepsOf_dropIdle (r : List Char) : stepsOf (dropIdle r).reverse = stepsOf r.reverse := by
  fun_induction dropIdle r with
  | case1 c r ih => rw [ih, @List.reverse_cons _ '/', stepsOf_append_slash]
  | case2 r ih =>
    rw [ih, @List.reverse_cons _ '.', @List.reverse_cons _ '/', stepsOf_append_slash,
      stepsOf_folder_append (.inr ⟨_, rfl⟩) (by decide), stepsOf_append_slash]
    exact (List.append_nil _).symm
  | case3 r _ _ => rfl

theorem getLast?_dropIdle (r : List Char) : (dropIdle r).getLast? = r.getLast? := by
  fun_induction dropIdle r with
  | case1 c r ih => rw [ih, List.getLast?_cons_cons]
  | case2 r ih => rw [ih, List.getLast?_cons_cons]
  | case3 r _ _ => rfl

theorem eq_of_takeWhile_eq_nil {r : List Char} (h : r.takeWhile (· != '/') = []) :
    r = [] ∨ ∃ r', r = '/' :: r' := by
  cases r with
  | nil => exact .inl rfl
  | cons c r =>
    rw [List.takeWhile_cons] at h
    split at h
    · cases h
    · next hc => exact .inr ⟨r, congrArg (· :: r) (by simpa using hc)⟩

theorem lastOf_dropIdle {r : List Char} (h : stepsOf r.reverse ≠ []) :
    component? (lastOf (dropIdle r).reverse) ≠ none := by
  rw [← stepsOf_dropIdle] at h
  rw [lastOf, List.reverse_reverse]
  fun_induction dropIdle r with
  | case1 c r ih => exact ih h
  | case2 r ih => exact ih h
  | case3 r hslash hdot =>
    intro hnone
    have hlast : r.takeWhile (· != '/') = [] ∨ r.takeWhile (· != '/') = ['.'] := by
      simpa [component?_eq_none_iff, List.reverse_eq_cons_iff] using hnone
    rcases hlast with hlast | hlast
    · rcases eq_of_takeWhile_eq_nil hlast with rfl | ⟨_ | ⟨c, r⟩, rfl⟩
      · exact h rfl
      · exact h rfl
      · exact hslash c r rfl
    · cases r with
      | nil => exact h rfl
      | cons c r =>
        rw [List.takeWhile_cons] at hlast
        split at hlast
        · obtain ⟨rfl, hbehind⟩ := List.cons.inj hlast
          rcases eq_of_takeWhile_eq_nil hbehind with rfl | ⟨r, rfl⟩
          · exact h rfl
          · exact hdot r rfl
        · cases hlast

/-- A path without its last step is its parent, which begins where the path begins. -/
theorem exists_parent {p : Path} {name : String} (h : p.fileName? = some name) :
    ∃ parent, p.parent? = some parent ∧ p.steps = parent.steps ++ [.name name] ∧
      (parent.text = "" → p.isAbsolute = false) ∧
        (parent.text ≠ "" → parent.isAbsolute = p.isAbsolute) := by
  have hname := steps_of_fileName? h
  have hsteps : stepsOf p.text.toList.reverse.reverse ≠ [] := by
    rw [List.reverse_reverse, ← steps]
    rintro hnil
    rw [hnil] at hname
    cases hname
  have hlast := lastOf_dropIdle hsteps
  have hdrop := stepsOf_dropIdle p.text.toList.reverse
  have hfirst := getLast?_dropIdle p.text.toList.reverse
  rw [← hdrop] at hsteps
  rw [List.reverse_reverse] at hdrop
  rw [List.getLast?_reverse] at hfirst
  -- `r` is the text from its end, which begins with the last step
  generalize hr : dropIdle p.text.toList.reverse = r at hlast hdrop hfirst hsteps
  have hparent : p.parent? =
      some ⟨String.ofList (dropIdle (r.dropWhile (· != '/'))).reverse⟩ := by
    rw [parent?, hr]
    split
    · exact absurd rfl hsteps
    · exact absurd rfl hsteps
    · rfl
  have htext : (String.ofList (dropIdle (r.dropWhile (· != '/'))).reverse).toList.head? =
      (r.dropWhile (· != '/')).getLast? := by
    rw [String.toList_ofList, List.head?_reverse, getLast?_dropIdle]
  refine ⟨_, hparent, ?_, fun hempty => ?_, fun hne => ?_⟩
  · obtain ⟨c, hc⟩ := Option.ne_none_iff_exists'.1 hlast
    have hfolder : stepsOf (dropIdle (r.dropWhile (· != '/'))).reverse =
        stepsOf (folderOf r.reverse) := by
      rw [stepsOf_dropIdle, folderOf, List.reverse_reverse]
    have hsplit : p.steps = stepsOf (folderOf r.reverse) ++ [c] := by
      rw [steps, ← hdrop, stepsOf_eq, hc]
      rfl
    rw [hsplit, List.getLast?_concat] at hname
    rw [hsplit, Option.some.inj hname, steps, String.toList_ofList, hfolder]
  · -- without a slash the path is relative
    have hempty : String.ofList (dropIdle (r.dropWhile (· != '/'))).reverse = "" := hempty
    rw [hempty] at htext
    have hnil : r.dropWhile (· != '/') = [] := List.getLast?_eq_none_iff.1 htext.symm
    rw [isAbsolute, ← hfirst, beq_eq_false_iff_ne]
    intro hslash
    have := List.dropWhile_eq_nil_iff.1 hnil _ (List.mem_of_getLast? hslash)
    cases this
  · have hcons : r.dropWhile (· != '/') ≠ [] := by
      intro hnil
      rw [hnil] at hne
      exact hne rfl
    have hend : r.getLast? = (r.dropWhile (· != '/')).getLast? := calc
      r.getLast? = (r.takeWhile (· != '/') ++ r.dropWhile (· != '/')).getLast? := by
        rw [List.takeWhile_append_dropWhile]
      _ = (r.dropWhile (· != '/')).getLast? := by
        rw [List.getLast?_append, List.getLast?_eq_some_getLast hcons, Option.some_or]
    rw [isAbsolute, isAbsolute, htext, ← hfirst, hend]

/-- The directory that a source is in, as far as its spelling tells. -/
def directory (p : Path) : Path :=
  match p.parent? with
  | some ⟨""⟩ | none => ⟨"."⟩
  | some parent => parent

/-- **A file is one step below its directory.** -/
theorem steps_directory {p : Path} {name : String} (h : p.fileName? = some name) :
    p.steps = p.directory.steps ++ [.name name] ∧ p.directory.isAbsolute = p.isAbsolute ∧
      p.directory.text ≠ "" := by
  obtain ⟨parent, hparent, hsteps, hrelative, habsolute⟩ := exists_parent h
  obtain ⟨text⟩ := parent
  rw [directory, hparent]
  by_cases htext : text = ""
  · subst htext
    exact ⟨hsteps, (hrelative rfl).symm, by decide⟩
  · have hself : (match some (Path.mk text) with
        | some ⟨""⟩ | none => ⟨"."⟩
        | some parent => parent) = Path.mk text := by
      split
      · next heq => exact absurd (congrArg Path.text (Option.some.inj heq)) htext
      · next heq => cases heq
      · next heq => exact (Option.some.inj heq).symm
    rw [hself]
    exact ⟨hsteps, habsolute htext, htext⟩

theorem isAbsolute_append {s : String} (hs : s ≠ "") (t : String) :
    (Path.mk (s ++ t)).isAbsolute = (Path.mk s).isAbsolute := by
  have hne : s.toList ≠ [] := fun h => hs (String.toList_eq_nil_iff.1 h)
  rw [isAbsolute, isAbsolute, String.toList_append, List.head?_append,
    List.head?_eq_some_head hne, Option.some_or]

/-- **What is joined to a directory is one step below it.** -/
theorem steps_join {p q : Path} (hp : p.text ≠ "") (hq : '/' ∉ q.text.toList) :
    (p.join q).steps = p.steps ++ (component? q.text.toList).toList ∧
      (p.join q).isAbsolute = p.isAbsolute := by
  have hrelative : q.isAbsolute = false := by
    rw [isAbsolute, beq_eq_false_iff_ne]
    exact fun h => hq (List.mem_of_mem_head? h)
  have hempty : p.text.isEmpty = false := String.isEmpty_eq_false_iff.2 hp
  rw [join, hrelative, hempty]
  simp only [Bool.or_false, Bool.false_eq_true, if_false]
  split
  · next hslash =>
    obtain ⟨front, hfront⟩ := List.getLast?_eq_some_iff.1 (beq_iff_eq.1 hslash)
    rw [steps, String.toList_append, stepsOf_folder_append (.inr ⟨front, hfront⟩) hq]
    exact ⟨rfl, isAbsolute_append hp _⟩
  · have htext : (p.text ++ "/" ++ q.text).toList =
        (p.text.toList ++ ['/']) ++ q.text.toList := by
      rw [String.toList_append, String.toList_append]
      rfl
    rw [steps, htext, stepsOf_folder_append (.inr ⟨_, rfl⟩) hq, stepsOf_append_slash,
      String.append_assoc]
    exact ⟨rfl, isAbsolute_append hp _⟩

end Path

namespace CaseFile

/-- The text of a source behind its last slash. As a rule it is the name of the source. -/
def stemOf (source : Path) : String := String.ofList (Path.lastOf source.text.toList)

/-- The name of the file with the tests of a function. -/
def outputName (stem function : String) : String := stem ++ "_test_" ++ function ++ ".c"

theorem toList_outputName (stem function : String) :
    (outputName stem function).toList =
      stem.toList ++ ("_test_".toList ++ (function.toList ++ ".c".toList)) := by
  simp only [outputName, String.toList_append, List.append_assoc]

/-- **The tests of a function** go one step below the part of the path up to the last slash. -/
theorem steps_output (source : Path) {function : String} (hfunction : '/' ∉ function.toList) :
    (output source function).steps = Path.stepsOf (Path.folderOf source.text.toList) ++
      [.name (outputName (stemOf source) function)] := by
  have htext : (output source function).text.toList = Path.folderOf source.text.toList ++
      (outputName (stemOf source) function).toList := by
    rw [toList_outputName, stemOf, String.toList_ofList, ← List.append_assoc,
      Path.folderOf_append_lastOf]
    simp only [output, String.toList_append, List.append_assoc]
  have hslash : '/' ∉ (outputName (stemOf source) function).toList := by
    rw [toList_outputName, stemOf, String.toList_ofList]
    simp only [List.mem_append, not_or]
    exact ⟨Path.not_slash_lastOf _, by decide, hfunction, by decide⟩
  have hlength : 2 < (outputName (stemOf source) function).toList.length := by
    rw [toList_outputName, List.length_append, List.length_append]
    have : "_test_".toList.length = 6 := rfl
    omega
  have hname : Path.component? (outputName (stemOf source) function).toList =
      some (.name (outputName (stemOf source) function)) := Path.component?_of_two_lt hlength
  rw [Path.steps, htext, Path.stepsOf_folder_append (Path.isFolder_folderOf _) hslash, hname]
  rfl

theorem isAbsolute_output {source : Path} (h : source.text ≠ "") (function : String) :
    (output source function).isAbsolute = source.isAbsolute := by
  rw [output, String.append_assoc, String.append_assoc]
  exact Path.isAbsolute_append h _

end CaseFile

end TestSynth
