import TestSynth.Proofs.LayerCount
import TestSynth.Proofs.Resolution
import TestSynth.Proofs.RoundTrip
import Mathlib.Algebra.Order.BigOperators.Group.List
import Mathlib.Algebra.Order.Ring.Nat

/-!
# The depth limit

The layers of a value are counted while it is read, each value on its own: a value that is read
because another one refers to it starts from zero again.  So the limit bounds the nesting of every
single value on the way of a resolution, but not that of all of them together.

* `Tables.nestings` : the layers of the values that are read one inside the other while a parameter
  is resolved.
* `Declarations.resolve_of_lt_nestings`, `Declarations.isTooDeep_of_resolve` : a single value that
  is too deep makes the resolution fail for the depth, and nothing else does.
* `Declarations.resolveParameters_tooDeep_iff` : which cases fail for the depth of their values, and
  how deep the others are nested altogether.
-/

namespace TestSynth

/-! ### Layers of a resolution -/

/-- How deep the values are nested that are read one inside the other while the parameter `name` is
resolved, the outermost one first. -/
def Tables.nestings (t : Tables) (pending : List String) (name : String) : List Nat :=
  if h : name ∈ pending then
    match t.isRegistered name, t.parameters[name]? with
    | false, some text =>
      have := Declarations.length_erase_lt h
      let layers := Value.layersOf text
      layers :: (Value.referred? (Value.parse layers text)).elim [] fun symbol =>
        nestings t (pending.erase name) symbol
    | _, _ => []
  else []
termination_by pending.length

namespace Declarations

variable {d : Declarations} {limit : Nat} {t t' : Tables} {pending : List String}
  {name text : String} {e : ParseError}

theorem nestings_of_settled
    (h : name ∈ pending → t.isRegistered name = true ∨ name ∉ t.parameters) :
    t.nestings pending name = [] := by
  rw [Tables.nestings]
  split
  · next hmem =>
    split
    · next hreg htext =>
      rcases h hmem with h | h
      · rw [hreg] at h
        cases h
      · exact absurd (Table.mem_of_getElem? htext) h
    · rfl
  · rfl

theorem nestings_of_text (hmem : name ∈ pending) (hreg : t.isRegistered name = false)
    (htext : t.parameters[name]? = some text) :
    t.nestings pending name = Value.layersOf text ::
      (Value.referred? (Value.parse (Value.layersOf text) text)).elim []
        fun symbol => t.nestings (pending.erase name) symbol := by
  rw [Tables.nestings, dif_pos hmem, hreg, htext]

theorem nestings_of_spelling {v : ValueTree} (hmem : name ∈ pending)
    (hreg : t.isRegistered name = false) (htext : t.parameters[name]? = some v.spelling) :
    t.nestings pending name = v.depth ::
      v.referent?.elim [] fun symbol => t.nestings (pending.erase name) symbol := by
  have hreferred : Value.referred? (Value.parse v.depth v.spelling) = v.referent? := by
    rw [Value.parse_spelling (Nat.le_refl _)]
    exact Value.referent?_toValue v
  rw [nestings_of_text hmem hreg htext, Value.layersOf_spelling, hreferred]

/-- There are no more values on the way than parameters that are still to be resolved. -/
theorem length_nestings_le (t : Tables) (pending : List String) (name : String) :
    (t.nestings pending name).length ≤ pending.countP fun s => !t.isRegistered s := by
  induction pending using pending_induction generalizing name with
  | step pending ih =>
    by_cases hsettled : name ∈ pending → t.isRegistered name = true ∨ name ∉ t.parameters
    · rw [nestings_of_settled hsettled]
      exact Nat.zero_le _
    · obtain ⟨hmem, hreg, hin⟩ : name ∈ pending ∧ t.isRegistered name = false ∧
          name ∈ t.parameters := by simpa using hsettled
      obtain ⟨text, htext⟩ := Table.exists_of_mem hin
      -- the parameter itself is the one that is pending no longer
      have hcount : pending.countP (fun s => !t.isRegistered s) =
          (pending.erase name).countP (fun s => !t.isRegistered s) + 1 := by
        rw [(List.perm_cons_erase hmem).countP_eq,
          List.countP_cons_of_pos (by simp only [hreg, Bool.not_false])]
      rw [nestings_of_text hmem hreg htext, List.length_cons, hcount]
      refine Nat.succ_le_succ ?_
      cases Value.referred? (Value.parse (Value.layersOf text) text) with
      | none => exact Nat.zero_le _
      | some symbol => exact ih name hmem symbol

theorem bindReading_of_failed {resolve : String → Tables → Outcome Unit}
    {reading : Except Value.Failure Value} {symbol : String}
    (h : Value.referred? reading = some symbol) (hresolve : resolve symbol t = (.error e, t')) :
    d.bindReading resolve reading t = (.error e, t') := by
  have hfollow (v : Value) (hv : Value.completed? reading = some v) :
      follow resolve v t = (.error e, t') := by
    have hreferent : v.referent? = some symbol := by rwa [Value.referred?, hv] at h
    rw [follow, hreferent]
    exact hresolve
  have hspec := d.bindReading_spec resolve reading t
  generalize d.bindReading resolve reading t = outcome at hspec
  cases hspec with
  | nothing e => cases h
  | unresolved hread hunresolved =>
    rw [hfollow _ hread] at hunresolved
    cases hunresolved
    rfl
  | partly e hok =>
    rw [hfollow _ rfl] at hok
    cases hok
  | wholly hok =>
    rw [hfollow _ rfl] at hok
    cases hok

/-- **A single value that is too deep** makes the resolution fail, before it changes anything. -/
theorem resolve_of_lt_nestings {n : Nat} (hn : n ∈ t.nestings pending name) (h : limit < n) :
    d.resolve limit pending name t = (.error (.tooDeep limit limit), t) := by
  induction pending using pending_induction generalizing name with
  | step pending ih =>
    rcases d.resolve_cases limit pending name t with ⟨hsettled, -⟩ | ⟨text, hmem, hreg, htext, hres⟩
    · rw [nestings_of_settled hsettled] at hn
      cases hn
    rw [nestings_of_text hmem hreg htext] at hn
    rw [hres]
    by_cases hlayers : limit < Value.layersOf text
    · rw [Value.parse_of_lt_layersOf hlayers]
      rfl
    · -- the value itself is read as without a limit, so it is one that it refers to
      rw [Value.parse_congr (Nat.le_of_not_lt hlayers) (Nat.le_refl _)]
      rcases List.mem_cons.1 hn with rfl | hn
      · exact absurd h hlayers
      cases hsymbol : Value.referred? (Value.parse (Value.layersOf text) text) with
      | none =>
        rw [hsymbol] at hn
        cases hn
      | some symbol =>
        rw [hsymbol] at hn
        rw [bindReading_of_failed hsymbol (ih name hmem hn)]
        rfl

/-- If no value on the way is too deep, the resolution does not fail for the depth, however deep
the values are nested altogether. -/
theorem isTooDeep_of_resolve (h : ∀ n ∈ t.nestings pending name, n ≤ limit)
    (hfail : d.resolve limit pending name t = (.error e, t')) : e.isTooDeep = false := by
  induction pending using pending_induction generalizing name t' with
  | step pending ih =>
    rcases d.resolve_cases limit pending name t with ⟨-, hres⟩ | ⟨text, hmem, hreg, htext, hres⟩
    · rw [hres] at hfail
      cases hfail
    rw [nestings_of_text hmem hreg htext] at h
    have hlayers := h _ List.mem_cons_self
    rw [hres] at hfail
    have hspec := d.bindReading_spec (d.resolve limit (pending.erase name))
      (Value.parse limit text) t
    generalize d.bindReading _ _ t = outcome at hspec hfail
    have hshallow := Value.shallow_parse hlayers
    generalize hparse : Value.parse limit text = reading at hspec
    cases hspec with
    | nothing e' =>
      cases hfail
      exact hshallow _ hparse
    | @unresolved _ v e' t'' hread hunresolved =>
      cases hfail
      -- with room for its own layers only, the text refers to the same symbol
      have hreferred : Value.referred? (Value.parse (Value.layersOf text) text) = v.referent? := by
        rw [← Value.parse_congr hlayers (Nat.le_refl _), hparse, Value.referred?, hread]
        rfl
      rw [hreferred] at h
      cases hsymbol : v.referent? with
      | none =>
        rw [follow, hsymbol] at hunresolved
        cases hunresolved
      | some symbol =>
        rw [follow, hsymbol] at hunresolved
        rw [hsymbol] at h
        exact ih name hmem (fun n hn => h n (List.mem_cons_of_mem _ hn)) hunresolved
    | partly e' _ =>
      cases hfail
      exact hshallow _ hparse
    | wholly _ => cases hfail

/-! ### All parameters of a case -/

theorem resolveEach_append (front names : List String) (t : Tables) :
    d.resolveEach (front ++ names) t = match d.resolveEach front t with
      | (.error e, t) => (.error e, t)
      | (.ok (), t) => d.resolveEach names t := by
  induction front generalizing t with
  | nil => rfl
  | cons name front ih =>
    rw [List.cons_append, resolveEach, resolveEach]
    split
    · rfl
    · exact ih _

/-- Parameters fail one after the other: the first ones are resolved, and the next one fails. -/
theorem resolveEach_eq_error_iff {names : List String} :
    d.resolveEach names t = (.error e, t') ↔ ∃ front name behind u,
      names = front ++ name :: behind ∧ d.resolveEach front t = (.ok (), u) ∧
        d.resolve Value.defaultLimit u.parameters.keys name u = (.error e, t') := by
  constructor
  · intro h
    induction names generalizing t with
    | nil => cases h
    | cons name names ih =>
      rw [resolveEach] at h
      split at h
      · next hfail =>
        cases h
        exact ⟨[], name, names, t, rfl, rfl, hfail⟩
      · next u hok =>
        obtain ⟨front, name', behind, u', rfl, hfront, hfail⟩ := ih h
        refine ⟨name :: front, name', behind, u', rfl, ?_, hfail⟩
        rw [resolveEach, hok]
        exact hfront
  · rintro ⟨front, name, behind, u, rfl, hfront, hfail⟩
    rw [resolveEach_append, hfront]
    simp only [resolveEach, hfail]

variable (d) in
/-- The turn comes to a parameter when those before it in the schedule have been resolved. -/
def ComesTo (t : Tables) (name : String) (t' : Tables) : Prop :=
  ∃ front behind, schedule t = front ++ name :: behind ∧ d.resolveEach front t = (.ok (), t')

theorem resolveParameters_of_lt_nestings {n : Nat} (h : d.ComesTo t name t')
    (hn : n ∈ t'.nestings t'.parameters.keys name) (hlt : Value.defaultLimit < n) :
    d.resolveParameters t = (.error (.tooDeep Value.defaultLimit Value.defaultLimit), t') := by
  obtain ⟨front, behind, hschedule, hfront⟩ := h
  rw [resolveParameters_eq]
  exact resolveEach_eq_error_iff.2
    ⟨front, name, behind, t', hschedule, hfront, resolve_of_lt_nestings hn hlt⟩

theorem exists_lt_nestings (h : d.resolveParameters t = (.error e, t'))
    (he : e.isTooDeep = true) : ∃ name u, d.ComesTo t name u ∧
      ∃ n ∈ u.nestings u.parameters.keys name, Value.defaultLimit < n := by
  rw [resolveParameters_eq] at h
  obtain ⟨front, name, behind, u, hschedule, hfront, hfail⟩ := resolveEach_eq_error_iff.1 h
  refine ⟨name, u, ⟨front, behind, hschedule, hfront⟩, ?_⟩
  by_contra hnone
  have := isTooDeep_of_resolve (fun n hn => Nat.le_of_not_lt fun hlt => hnone ⟨n, hn, hlt⟩) hfail
  rw [this] at he
  cases he

theorem sum_nestings_le {limit : Nat} (h : ∀ n ∈ t.nestings pending name, n ≤ limit) :
    (t.nestings pending name).sum ≤ (pending.countP fun s => !t.isRegistered s) * limit := calc
  _ ≤ (t.nestings pending name).length * limit := List.sum_le_card_nsmul _ _ h
  _ ≤ _ := Nat.mul_le_mul_right _ (length_nestings_le ..)

/-- **Each value on the way is bounded, not all of them together.**  A case fails for the depth of
its values exactly if, when the turn comes to one of its parameters, some single value on the way of
its resolution has more layers than the limit allows.  Otherwise the values on the way are nested
altogether at most as many times the limit as there are parameters to be resolved. -/
theorem resolveParameters_tooDeep_iff (d : Declarations) (t : Tables) :
    ((∃ e t', d.resolveParameters t = (.error e, t') ∧ e.isTooDeep = true) ↔
      ∃ name t', d.ComesTo t name t' ∧
        ∃ n ∈ t'.nestings t'.parameters.keys name, Value.defaultLimit < n) ∧
    (∀ e t', d.resolveParameters t = (.error e, t') → e.isTooDeep = true →
      e = .tooDeep Value.defaultLimit Value.defaultLimit) ∧
    ∀ name t', d.ComesTo t name t' →
      (∀ n ∈ t'.nestings t'.parameters.keys name, n ≤ Value.defaultLimit) →
      (t'.nestings t'.parameters.keys name).sum ≤
        (t'.parameters.keys.countP fun s => !t'.isRegistered s) * Value.defaultLimit := by
  refine ⟨⟨fun ⟨e, t', h, he⟩ => exists_lt_nestings h he, ?_⟩, fun e t' h he => ?_,
    fun _ _ _ => sum_nestings_le⟩
  · rintro ⟨name, t', hcomes, n, hn, hlt⟩
    exact ⟨_, t', resolveParameters_of_lt_nestings hcomes hn hlt, rfl⟩
  · obtain ⟨name, u, hcomes, n, hn, hlt⟩ := exists_lt_nestings h he
    rw [resolveParameters_of_lt_nestings hcomes hn hlt] at h
    cases h
    rfl

/-- The limit that is set for each value holds for the values on the way of a
resolution together. -/
def BoundsTotal (d : Declarations) (t : Tables) : Prop :=
  ∀ name t', d.ComesTo t name t' →
    Value.defaultLimit < (t'.nestings t'.parameters.keys name).sum →
      ∃ e t'', d.resolveParameters t = (.error e, t'') ∧ e.isTooDeep = true

/-! ### Two deep values -/

/-- If all values can be read, all parameters are resolved. -/
theorem resolve_of_readable {limit : Nat} {t : Tables}
    (h : ∀ s text, t.isRegistered s = false → t.parameters[s]? = some text →
      ∃ v, Value.parse limit text = .ok v) (pending : List String) (name : String) :
    ∃ t', d.resolve limit pending name t = (.ok (), t') := by
  induction pending using pending_induction generalizing name with
  | step pending ih =>
    rcases d.resolve_cases limit pending name t with ⟨-, hres⟩ | ⟨text, hmem, hreg, htext, hres⟩
    · exact ⟨t, hres⟩
    obtain ⟨v, hv⟩ := h name text hreg htext
    obtain ⟨t', hfollow⟩ :
        ∃ t', follow (d.resolve limit (pending.erase name)) v t = (.ok (), t') := by
      rw [follow]
      cases v.referent? with
      | none => exact ⟨t, rfl⟩
      | some symbol => exact ih name hmem symbol
    rw [hres, hv, bindReading_ok, hfollow]
    exact ⟨_, rfl⟩

theorem resolveEach_of_readable {t : Tables}
    (h : ∀ s text, t.isRegistered s = false → t.parameters[s]? = some text →
      ∃ v, Value.parse Value.defaultLimit text = .ok v) (names : List String) :
    ∃ t', d.resolveEach names t = (.ok (), t') := by
  induction names generalizing t with
  | nil => exact ⟨t, rfl⟩
  | cons name names ih =>
    obtain ⟨t', hres⟩ := resolve_of_readable (d := d) h t.parameters.keys name
    have hextends := (runs_resolve (d := d) Value.defaultLimit t.parameters.keys name t).extends
    rw [hres] at hextends
    rw [resolveEach, hres]
    refine ih fun s text hreg htext => ?_
    rw [hextends.parameters_eq hreg] at htext
    refine h s text (Bool.eq_false_iff.2 fun hreg' => ?_) htext
    rw [hextends.isRegistered hreg'] at hreg
    cases hreg

end Declarations

/-- Some regions around a tree. -/
def ValueTree.regions (v : ValueTree) : Nat → ValueTree
  | 0 => v
  | n + 1 => .region (v.regions n) []

theorem ValueTree.depth_regions (v : ValueTree) (n : Nat) : (v.regions n).depth = n + v.depth := by
  induction n with
  | zero => exact (Nat.zero_add _).symm
  | succ n ih => rw [regions, depth, ih]; omega

theorem ValueTree.referent?_regions (v : ValueTree) (n : Nat) :
    (v.regions n).referent? = v.referent? := by
  induction n with
  | zero => rfl
  | succ n ih => exact ih

theorem ValueTree.toList_regions (v : ValueTree) (n : Nat) :
    ∃ behind, (v.regions (n + 1)).spelling.toList = "SymRegion\x7b".toList ++ behind :=
  ⟨_, by rw [regions, spelling, String.toList_append]⟩

theorem Declarations.isCompound_regions (v : ValueTree) (n : Nat) :
    isCompound (v.regions (n + 1)).spelling = true := by
  obtain ⟨behind, htext⟩ := v.toList_regions n
  rw [isCompound, htext]
  rfl

theorem Declarations.fate_regions (d : Declarations) {name : String} (v : ValueTree) (n : Nat)
    (hname : conjuredMark.toList.isPrefixOf name.toList = false) :
    d.fate name (v.regions (n + 1)).spelling = .kept := by
  obtain ⟨behind, htext⟩ := v.toList_regions n
  rw [fate, htext, hname]
  rfl

namespace Case

theorem form_secondReference : AtomForm (Token.ofText "reg_$1") (some "reg_$1") := by
  have register : Token.ofText "reg_$1" = [.register "reg_$1"] := by decide +kernel
  exact register ▸ .register _

theorem trimmed_secondReference : Text.trimmed "reg_$1" = "reg_$1" := by decide +kernel

/-- A reference to the second parameter. -/
def secondReference : ValueTree :=
  .atom ⟨"reg_$1", some "reg_$1", form_secondReference, trimmed_secondReference⟩

/-- A word. -/
def someWord : ValueTree :=
  have word : Token.ofText "x" = [.word "x"] := by decide +kernel
  .atom ⟨"x", none, word ▸ .word _, by decide +kernel⟩

/-- A case of two parameters: the first refers to the second, inside `n + 1` regions, and the second
is a word inside as many. -/
def chained (n : Nat) : Case where
  parameters :=
    ((∅ : Table String).insert "reg_$0" (secondReference.regions (n + 1)).spelling).insert
      "reg_$1" (someWord.regions (n + 1)).spelling

theorem getElem?_chained {n : Nat} {s text : String} (h : (chained n).parameters[s]? = some text) :
    s = "reg_$0" ∧ text = (secondReference.regions (n + 1)).spelling ∨
      s = "reg_$1" ∧ text = (someWord.regions (n + 1)).spelling := by
  simp only [chained, Std.ExtTreeMap.getElem?_insert, Std.compare_eq_iff_eq] at h
  split at h
  · next hs => exact .inr ⟨hs.symm, (Option.some.inj h).symm⟩
  · split at h
    · next hs => exact .inl ⟨hs.symm, (Option.some.inj h).symm⟩
    · simp at h

theorem parameters_intake_chained (d : Declarations) (n : Nat) :
    ((chained n).intake d).parameters = (chained n).parameters := by
  refine Std.ExtTreeMap.ext_getElem? fun s => ?_
  rw [intake, Std.ExtTreeMap.getElem?_filter']
  cases h : (chained n).parameters[s]? with
  | none => rfl
  | some text =>
    have hkept : d.fate s text = .kept := by
      rcases getElem?_chained h with ⟨rfl, rfl⟩ | ⟨rfl, rfl⟩ <;>
        exact d.fate_regions _ n (by decide)
    simp only [Option.filter, hkept]
    rfl

theorem schedule_chained (d : Declarations) (n : Nat) :
    Declarations.schedule ((chained n).intake d) = ["reg_$0", "reg_$1"] := by
  have htoList : (chained n).parameters.toList =
      [("reg_$0", (secondReference.regions (n + 1)).spelling),
        ("reg_$1", (someWord.regions (n + 1)).spelling)] := rfl
  rw [Declarations.schedule, parameters_intake_chained, htoList]
  simp only [List.partition_eq_filter_filter, List.filter, Function.comp_apply,
    Declarations.isCompound_regions]
  rfl

theorem nestings_chained (d : Declarations) (n : Nat) :
    ((chained n).intake d).nestings ((chained n).intake d).parameters.keys "reg_$0" =
      [n + 2, n + 2] := by
  have hkeys : (chained n).parameters.keys = ["reg_$0", "reg_$1"] := rfl
  have hfirst : (chained n).parameters["reg_$0"]? =
      some (secondReference.regions (n + 1)).spelling := rfl
  have hsecond : (chained n).parameters["reg_$1"]? =
      some (someWord.regions (n + 1)).spelling := rfl
  rw [← parameters_intake_chained d] at hfirst hsecond
  rw [parameters_intake_chained, hkeys, Declarations.nestings_of_spelling (by decide) rfl hfirst,
    ValueTree.referent?_regions, ValueTree.depth_regions]
  show _ :: Tables.nestings _ ["reg_$1"] "reg_$1" = _
  rw [Declarations.nestings_of_spelling (by decide) rfl hsecond, ValueTree.referent?_regions,
    ValueTree.depth_regions]
  rfl

theorem resolveParameters_chained (d : Declarations) {n : Nat} (h : n + 2 ≤ Value.defaultLimit) :
    ∃ t', d.resolveParameters ((chained n).intake d) = (.ok (), t') := by
  refine Declarations.resolveEach_of_readable (fun s text _ htext => ?_) _
  rw [parameters_intake_chained] at htext
  rcases getElem?_chained htext with ⟨-, rfl⟩ | ⟨-, rfl⟩
  all_goals exact ⟨_, Value.parse_spelling (by rw [ValueTree.depth_regions]; exact h)⟩

/-- Two values of 256 layers each are read one inside the other: 512 layers, and nothing fails. -/
theorem not_boundsTotal_chained :
    ¬Declarations.BoundsTotal {} ((chained 254).intake {}) := by
  intro hbounds
  have hcomes : Declarations.ComesTo {} ((chained 254).intake {}) "reg_$0"
      ((chained 254).intake {}) := ⟨[], ["reg_$1"], schedule_chained {} 254, rfl⟩
  obtain ⟨e, t', hfail, -⟩ := hbounds _ _ hcomes (by rw [nestings_chained]; decide)
  obtain ⟨t'', hok⟩ := resolveParameters_chained {} (n := 254) (by decide)
  rw [hok] at hfail
  cases hfail

end Case

end TestSynth
