import TestSynth.Case.Intake
import TestSynth.Proofs.Renaming.Binding

/-!
# Renamed cases

In a renamed case the symbols are renamed throughout: in the names and the values of the parameters,
in the model, and in the names of the types.  The types themselves stay.  What is taken in of the
renamed case is what is taken in of the case, renamed.

* `Renaming.case` : the renamed case.
* `Renaming.parse_model` : the literals of a renamed model.
* `Tables.Renamed.intake` : the tables with which the reading of the renamed case begins.
-/

namespace TestSynth

open Text (isNameChar Cut Plain runs_induction)

namespace Renaming

variable (ρ : Renaming)

/-- A table with its names renamed and its values changed by `f`. -/
def table {α β : Type} (f : α → β) (m : Table α) : Table β :=
  .ofList (m.toList.map (Prod.map ρ.text f))

/-- A case with its symbols renamed. -/
def case (c : Case) : Case where
  parameters := ρ.table ρ.text c.parameters
  model := ρ.text c.model
  types := ρ.table id c.types

namespace Carries

variable {ρ} {α β : Type} {f : α → β} {m : Table α} {m' : Table β}

theorem empty : ρ.Carries f ∅ ∅ := fun name => by simp

/-- A table that is made of renamed entries, of which later ones count. -/
theorem ofList (l : List (String × α)) :
    ρ.Carries f (.ofList l) (.ofList (l.map (Prod.map ρ.text f))) := by
  rw [Std.ExtTreeMap.ofList_eq_foldl, Std.ExtTreeMap.ofList_eq_foldl]
  suffices h : ∀ (m : Table α) (m' : Table β), ρ.Carries f m m' →
      ρ.Carries f (l.foldl (fun acc p => acc.insert p.1 p.2) m)
        ((l.map (Prod.map ρ.text f)).foldl (fun acc p => acc.insert p.1 p.2) m') from h _ _ empty
  induction l with
  | nil => exact fun _ _ h => h
  | cons entry l ih => exact fun m m' h => ih _ _ (h.insert entry.1 entry.2)

theorem table (ρ : Renaming) (f : α → β) (m : Table α) : ρ.Carries f m (ρ.table f m) := by
  have hmap {entry : String × β} : entry ∈ m.toList.map (Prod.map ρ.text f) ↔
      ∃ name value, m[name]? = some value ∧ (ρ.text name, f value) = entry := by
    simp only [List.mem_map, Prod.exists, Std.ExtTreeMap.mem_toList_iff_getElem?_eq_some]
    rfl
  intro name
  cases hvalue : m[name]? with
  | some value =>
    refine Std.ExtTreeMap.getElem?_ofList_of_mem (Std.compare_eq_iff_eq.2 rfl) ?_
      (hmap.2 ⟨name, value, hvalue, rfl⟩)
    refine List.pairwise_map.2 (m.distinct_keys_toList.imp fun hne heq => hne ?_)
    exact Std.compare_eq_iff_eq.2 (ρ.text_injective (Std.compare_eq_iff_eq.1 heq))
  | none =>
    refine Std.ExtTreeMap.getElem?_ofList_of_contains_eq_false ?_
    rw [← Bool.not_eq_true, List.contains_iff_mem, List.mem_map]
    rintro ⟨entry, hentry, hname⟩
    obtain ⟨name', value, hvalue', rfl⟩ := hmap.1 hentry
    rw [ρ.text_injective hname, hvalue] at hvalue'
    cases hvalue'

theorem congr (h : ρ.Carries f m m') {g : α → β}
    (hg : ∀ (name : String) (value : α), m[name]? = some value → f value = g value) :
    ρ.Carries g m m' := by
  intro name
  rw [h]
  cases hvalue : m[name]? with
  | none => rfl
  | some value => exact congrArg some (hg name value hvalue)

theorem filter (h : ρ.Carries f m m') {p : String → α → Bool} {p' : String → β → Bool}
    (hp : ∀ name value, p' (ρ.text name) (f value) = p name value) :
    ρ.Carries f (m.filter p) (m'.filter p') := by
  intro name
  rw [Std.ExtTreeMap.getElem?_filter', Std.ExtTreeMap.getElem?_filter', h, Option.filter_map]
  exact congrArg (Option.map f) (congrArg (Option.filter · _) (funext (hp name)))

end Carries

/-! ### Models -/

theorem respellHex_append {w s : List Char} (hs : ∀ c, s.head? = some c → isNameChar c = false) :
    Model.respellHex (w ++ s) = Model.respellHex w ++ Model.respellHex s :=
  Model.respellHex_append fun hx => absurd (hs 'x' hx) (by decide)

/-- What is respelled keeps its names, or has a digit zero and an `x` in them. -/
theorem respellHex_cases (w : List Char) :
    Model.respellHex w = w ∨ 'x' ∈ w ∧ 'x' ∈ Model.respellHex w := by
  fun_induction Model.respellHex w with
  | case1 w ih => exact .inr ⟨by simp, by simp⟩
  | case2 c w hnot ih =>
    rcases ih with ih | ⟨hx, hx'⟩
    · exact .inl (by rw [ih])
    · exact .inr ⟨List.mem_cons_of_mem c hx, List.mem_cons_of_mem c hx'⟩
  | case3 => exact .inl rfl

theorem isNameChar_of_mem_respellHex {w : List Char} (hw : ∀ c ∈ w, isNameChar c = true) {c : Char}
    (hc : c ∈ Model.respellHex w) : isNameChar c = true := by
  fun_induction Model.respellHex w with
  | case1 w ih =>
    rcases List.mem_cons.1 hc with rfl | hc
    · decide
    rcases List.mem_cons.1 hc with rfl | hc
    · decide
    · exact ih (fun d hd => hw d (by simp [hd])) hc
  | case2 d w hnot ih =>
    rcases List.mem_cons.1 hc with rfl | hc
    · exact hw c List.mem_cons_self
    · exact ih (fun e he => hw e (List.mem_cons_of_mem d he)) hc
  | case3 => cases hc

theorem respellHex_run (w : List Char) :
    Model.respellHex (ρ.run w) = ρ.run (Model.respellHex w) := by
  have hregister (r : Register) : Model.respellHex r.1 = r.1 :=
    (respellHex_cases r.1).resolve_right fun h => r.not_mem (by decide) (by decide) h.1
  rcases ρ.run_cases w with ⟨r, rfl, hrun⟩ | ⟨-, hrun⟩
  · rw [hregister, hrun, hregister]
  · rcases respellHex_cases w with hw | ⟨-, hx⟩
    · rw [hrun, hw, hrun]
    · rw [hrun, run_of_not_register]
      by_contra hnot
      exact Register.not_mem ⟨_, by simpa using hnot⟩ (by decide) (by decide) hx

theorem respellHex_cons_of_sep {c : Char} (hc : isNameChar c = false) (s : List Char) :
    Model.respellHex (c :: s) = c :: Model.respellHex s := by
  rw [Model.respellHex]
  rintro s' rfl
  cases hc

theorem respellHex_chars (s : List Char) :
    Model.respellHex (ρ.chars s) = ρ.chars (Model.respellHex s) := by
  induction s using runs_induction with
  | nil => rw [chars_nil, Model.respellHex, chars_nil]
  | sep c s hc ih =>
    rw [chars_cons_of_sep ρ hc, respellHex_cons_of_sep hc, respellHex_cons_of_sep hc, ih,
      chars_cons_of_sep ρ hc]
  | run w s _ hw hs ih =>
    rw [chars_append_run ρ hw hs, respellHex_append fun c => ρ.isNameChar_head?_chars hs,
      respellHex_append hs, ih, respellHex_run,
      chars_append_run ρ fun c => isNameChar_of_mem_respellHex hw]
    intro c hc
    cases s with
    | nil => cases hc
    | cons d s =>
      rw [respellHex_cons_of_sep (hs d rfl)] at hc
      exact hs c hc

theorem splitOnce_append_run {m : Char} (hm : isNameChar m = false) {w : List Char}
    (hw : ∀ c ∈ w, isNameChar c = true) (mark s : List Char) :
    Text.splitOnce (m :: mark) (w ++ s) =
      (Text.splitOnce (m :: mark) s).map fun entry => (w ++ entry.1, entry.2) := by
  induction w with
  | nil => simp
  | cons c w ih =>
    have hne : m ≠ c := fun h => by
      rw [h, hw c List.mem_cons_self] at hm
      cases hm
    rw [List.cons_append, Text.splitOnce, Text.after?, if_neg hne,
      ih fun d hd => hw d (List.mem_cons_of_mem c hd)]
    simp only [Option.map_map]
    rfl

/-- A text is split at a mark of separators as well before as after the renaming. -/
theorem splitOnce_chars {m : Char} {mark : List Char}
    (hmark : ∀ c ∈ m :: mark, isNameChar c = false) (s : List Char) :
    Text.splitOnce (m :: mark) (ρ.chars s) =
      (Text.splitOnce (m :: mark) s).map (Prod.map ρ.chars ρ.chars) := by
  have hplain : Plain (m :: mark) := fun hdollar => by
    have := hmark '$' hdollar
    revert this
    decide
  have hlast : ∀ c, (m :: mark).getLast? = some c → isNameChar c = false := fun c hc =>
    hmark c (List.mem_of_getLast? hc)
  induction s using runs_induction with
  | nil => rw [chars_nil]; rfl
  | sep c s hc ih =>
    have hafter := ρ.after?_chars hplain hlast (c :: s)
    rw [chars_cons_of_sep ρ hc] at hafter ⊢
    rw [Text.splitOnce, Text.splitOnce, hafter]
    cases Text.after? (m :: mark) (c :: s) with
    | some rest => exact congrArg some (Prod.ext ρ.chars_nil.symm rfl)
    | none =>
      simp only [Option.map_none, ih, Option.map_map]
      exact congrArg (Option.map · _) (funext fun entry =>
        Prod.ext (ρ.chars_cons_of_sep hc entry.1).symm rfl)
  | run w s _ hw hs ih =>
    have hm := hmark m List.mem_cons_self
    rw [chars_append_run ρ hw hs, splitOnce_append_run hm (fun c => ρ.isNameChar_of_mem_run hw), ih,
      splitOnce_append_run hm hw]
    cases hsplit : Text.splitOnce (m :: mark) s with
    | none => rfl
    | some entry =>
      obtain ⟨before, rest⟩ := entry
      -- a name does not end before the mark where the text does not
      have hbefore : ∀ c, before.head? = some c → isNameChar c = false := fun c hc => hs c <| by
        rw [Text.eq_append_of_splitOnce hsplit, List.append_assoc, List.head?_append, hc,
          Option.some_or]
      exact congrArg some (Prod.ext (ρ.chars_append_run hw hbefore).symm rfl)

theorem line?_chars (s : List Char) :
    Model.line? (ρ.chars s) = (Model.line? s).map (Prod.map ρ.text ρ.text) := by
  have hmark : "->".toList = '-' :: ['>'] := by decide
  rw [Model.line?, Model.line?, hmark, splitOnce_chars ρ (Text.forall_mem (by decide)),
    Option.map_map, Option.map_map]
  refine congrArg (Option.map · _) (funext fun entry => ?_)
  simp only [Function.comp, Prod.map, trim_chars, text_ofList]

/-- **A renamed model gives the renamed literals to the renamed symbols.** -/
theorem parse_model (model : String) :
    ρ.Carries ρ.text (Model.parse model) (Model.parse (ρ.text model)) := by
  have hnewline : ∀ c : Char, (c == '\n') = true → isNameChar c = false := by
    intro c hc
    rw [beq_iff_eq.1 hc]
    decide
  have hlines (ps : List (List Char)) : (ps.map ρ.chars).filterMap Model.line? =
      (ps.filterMap Model.line?).map (Prod.map ρ.text ρ.text) := by
    rw [List.filterMap_map, List.map_filterMap]
    exact congrArg (List.filterMap · ps) (funext ρ.line?_chars)
  rw [Model.parse, Model.parse, toList_text, respellHex_chars, pieces_chars ρ hnewline, hlines]
  exact .ofList _

/-! ### Fates -/

variable {d : Declarations}

theorem isPrefixOf_builtin (s : List Char) :
    builtinMark.toList.isPrefixOf (ρ.chars s) = builtinMark.toList.isPrefixOf s :=
  ρ.isPrefixOf_chars (c := '_') (by decide) (by decide) (Text.forall_mem (by decide)) s

theorem isPrefixOf_conjured (s : List Char) :
    conjuredMark.toList.isPrefixOf (ρ.chars s) = conjuredMark.toList.isPrefixOf s :=
  ρ.isPrefixOf_chars (c := 'c') (by decide) (by decide) (Text.forall_mem (by decide)) s

theorem hasFunction_text (h : d.Plain) (name : String) :
    d.hasFunction (ρ.text name) = d.hasFunction name := by
  rw [Declarations.hasFunction, Declarations.hasFunction,
    Std.ExtTreeMap.contains_eq_isSome_getElem?, Std.ExtTreeMap.contains_eq_isSome_getElem?,
    ρ.getElem?_text (.of_getElem? fun _ _ hf => (h.function hf).1)]

theorem fate_text (h : d.Plain) (name text : String) :
    d.fate (ρ.text name) (ρ.text text) = d.fate name text := by
  rw [Declarations.fate, toList_text, toList_text, isPrefixOf_builtin, isPrefixOf_conjured,
    trimmed_text, hasFunction_text ρ h, Declarations.fate]

theorem fate_case (h : d.Plain) (c : Case) (name : String) :
    (ρ.case c).fate d (ρ.text name) = c.fate d name := by
  have hlookup := Carries.table ρ ρ.text c.parameters name
  rw [Case.fate, case, hlookup, Case.fate]
  cases c.parameters[name]? with
  | none => rfl
  | some text => exact ρ.fate_text h name text

end Renaming

/-- **What is taken in of a renamed case is what is taken in of the case, renamed.** -/
theorem Tables.Renamed.intake {d : Declarations} (hd : d.Plain) {c : Case}
    (htypes : ∀ name type : String, c.types[name]? = some type → Plain type.toList)
    (ρ : Renaming) : Tables.Renamed ρ (c.intake d) ((ρ.case c).intake d) where
  parameters := (Renaming.Carries.table ρ ρ.text c.parameters).filter fun name text => by
    rw [ρ.fate_text hd]
  values := (ρ.parse_model c.model).filter fun name _ => by rw [ρ.fate_case hd]
  types := ((Renaming.Carries.table ρ id c.types).congr fun name type h =>
      (ρ.text_of_plain (htypes name type h)).symm).filter fun name _ => by rw [ρ.fate_case hd]
  exprs := .empty
  slots := .empty
  order := rfl
  sizes := fun slot => by simp [Case.intake]

end TestSynth
