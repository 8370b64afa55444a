import TestSynth.Case.Binding
import TestSynth.Proofs.TypeFixpoints

/-!
# The records that types come down to

A type comes down to a record when its qualifiers, its pointers and its typedefs are taken away.
The layout of that record is not looked up under its name, but under the resolved type without its
suffix: leading qualifiers stay in front of it, and behind them no record is found.

* `EndsAt` : where the typedefs of a name come to an end.
* `Walk.endsAt` : a walk through the typedefs ends there, but for leading qualifiers.
* `HasLayout` : the layout of the record that a type comes down to.
* `HasLayout.fieldType?_eq` : its fields are known exactly if the resolved type has no leading
  qualifiers.
* `HasLayout.qualifier_append`, `HasLayout.append_qualifier` : qualifiers in front of a type and
  behind it.
-/

namespace TestSynth

open TypeSpelling
open Relation (ReflTransGen TransGen)
open Renaming (isFiller dropQualifiers_eq)

/-! ### Where typedefs end -/

section

variable {typedefs : Table String} {name name' mid : String}

theorem BuiltOn.mem (h : BuiltOn typedefs name name') : name ∈ typedefs := by
  obtain ⟨target, htarget, -⟩ := h
  exact Table.mem_of_getElem? htarget

theorem BuiltOn.unique (h : BuiltOn typedefs name mid) (h' : BuiltOn typedefs name name') :
    mid = name' := by
  obtain ⟨target, htarget, rfl⟩ := h
  obtain ⟨target', htarget', rfl⟩ := h'
  cases htarget.symm.trans htarget'
  rfl

/-- The typedefs that a name is built on come to an end at `name'`. -/
structure EndsAt (typedefs : Table String) (name name' : String) : Prop where
  path : ReflTransGen (BuiltOn typedefs) name name'
  last : name' ∉ typedefs

namespace EndsAt

theorem eq_of_not_mem (h : EndsAt typedefs name name') (hnot : name ∉ typedefs) : name' = name := by
  rcases h.path.cases_head with heq | ⟨_, hstep, -⟩
  · exact heq.symm
  · exact absurd hstep.mem hnot

theorem step (h : EndsAt typedefs name name') (hstep : BuiltOn typedefs name mid) :
    EndsAt typedefs mid name' := by
  rcases h.path.cases_head with rfl | ⟨mid', hstep', hpath⟩
  · exact absurd hstep.mem h.last
  · exact ⟨hstep.unique hstep' ▸ hpath, h.last⟩

/-- A path that comes to an end has no circle on it. -/
theorem not_transGen (h : EndsAt typedefs name name') :
    ¬TransGen (BuiltOn typedefs) name name := by
  obtain ⟨hpath, hlast⟩ := h
  induction hpath using ReflTransGen.head_induction_on with
  | refl =>
    intro hcircle
    obtain ⟨_, hstep, -⟩ := TransGen.head'_iff.1 hcircle
    exact hlast hstep.mem
  | head hstep _ ih =>
    intro hcircle
    obtain ⟨_, hstep', hback⟩ := TransGen.head'_iff.1 hcircle
    rw [hstep'.unique hstep] at hback
    exact ih (.tail' hback hstep)

end EndsAt

end

/-! ### Bases -/

namespace TypeSpelling

/-- The base of a type that means something: it does not begin with a star or a blank, has no
leading qualifiers and is no qualifier itself. -/
structure IsBase (s : List Char) : Prop where
  head : ∃ c, s.head? = some c ∧ isFiller c = false
  not_qualifier : s ∉ qualifiers
  bare : dropQualifiers s = s

namespace IsBase

variable {s : List Char}

theorem ne_nil (h : IsBase s) : s ≠ [] := by
  rintro rfl
  obtain ⟨_, hc, -⟩ := h.head
  cases hc

theorem ne_nil_of_dropQualifiers (h : IsBase (dropQualifiers s)) : s ≠ [] := by
  rintro rfl
  exact h.ne_nil (dropQualifiers_of_head? nofun)

theorem of_head {c : Char} (hc : isFiller c = false)
    (hnot : ∀ q ∈ qualifiers, q.head? ≠ some c) : IsBase (c :: s) := by
  refine ⟨⟨c, rfl, hc⟩, fun hmem => hnot _ hmem rfl, ?_⟩
  rw [dropQualifiers_eq]
  cases hafter : afterQualifiers? (c :: s) with
  | none => rfl
  | some rest =>
    obtain ⟨q, hq, t, heq, -⟩ := afterQualifiers?_eq_some.1 hafter
    refine absurd ?_ (hnot q hq)
    rw [← List.head?_append_of_ne_nil q (ne_nil_of_mem_qualifiers hq), ← heq]
    rfl

end IsBase

theorem splitQualifiers_eq_nil_iff {s : List Char} :
    (splitQualifiers s).1 = [] ↔ dropQualifiers s = s := by
  have hparts := (splitQualifiers_parts s).1
  change s = _ ++ dropQualifiers s at hparts
  constructor
  · intro hnil
    rwa [hnil, List.nil_append, eq_comm] at hparts
  · intro hbare
    rw [hbare] at hparts
    exact List.append_left_eq_self.1 hparts.symm

/-- With qualifiers in front a text has leading qualifiers. -/
theorem Leading.dropQualifiers_append_eq_self {p s : List Char} (hp : Leading p)
    (hs : Text.Flush s) : dropQualifiers (p ++ s) = p ++ s ↔ p = [] ∧ dropQualifiers s = s := by
  rw [hp.dropQualifiers_append hs]
  constructor
  · intro hbare
    -- what is left of a text is not longer
    obtain ⟨r, hr, -⟩ := leading_dropQualifiers s
    have hlen := congrArg List.length hr
    have hlen' := congrArg List.length hbare
    simp only [List.length_append] at hlen hlen'
    have hnil : p = [] := List.length_eq_zero_iff.1 (by omega)
    exact ⟨hnil, by rw [hbare, hnil, List.nil_append]⟩
  · rintro ⟨rfl, hbare⟩
    exact hbare

end TypeSpelling

theorem IsName.isBase {name : String} (h : IsName name) : IsBase name.toList := by
  refine ⟨h.head, h.not_qualifier, ?_⟩
  have hflush := (Text.trim_eq_self_iff.1 (trim_splitSuffix name.toList)).1
  rw [← h.base]
  exact dropQualifiers_dropQualifiers hflush

/-- **A base is what is split off the suffix, with any qualifiers in front.** -/
theorem Divided.splitSuffix_append {base suffix p : List Char} (h : Divided base suffix)
    (hbase : IsBase (TypeSpelling.dropQualifiers base)) (hp : Leading p) :
    (TypeSpelling.splitSuffix (p ++ (base ++ suffix))).1 = p ++ base := by
  have hne := hbase.ne_nil_of_dropQualifiers
  rw [← List.append_assoc, h.trailing.splitSuffix_append ((h.solid hne).append_right p)]
  rcases splitSuffix_leading_append hp h.bare hne with heq | ⟨z, w, hw, rfl, hz⟩
  · exact heq
  · cases z with
    | nil =>
      rw [List.nil_append, dropQualifiers_of_word fun c => isFiller_of_mem_qualifier hw] at hbase
      exact absurd hw hbase.not_qualifier
    | cons c z =>
      have hc := hz c List.mem_cons_self
      obtain ⟨d, hd, hfiller⟩ := hbase.head
      rw [List.cons_append, dropQualifiers_of_head? (by simpa using hc)] at hd
      cases hd
      rw [hc] at hfiller
      cases hfiller

/-- On the way to where the typedefs end, a walk does not come back, and it reaches a base that is
built on them as well. -/
theorem Walk.endsAt {typedefs : Table String} {visited : List (List Char)}
    {base suffix : List Char} {lookups : Nat} {reached : List Char × List Char} {last : String}
    (hnames : ∀ name ∈ typedefs, IsName name) (hlast : last ≠ "")
    (hwalk : Walk typedefs visited base suffix lookups reached) (hdivided : Divided base suffix)
    (hends : EndsAt typedefs (String.ofList (dropQualifiers base)) last)
    (hvisited : ∀ v ∈ visited, String.ofList v ∈ typedefs ∧
      TransGen (BuiltOn typedefs) (String.ofList v) (String.ofList (dropQualifiers base))) :
    Divided reached.1 reached.2 ∧
      EndsAt typedefs (String.ofList (dropQualifiers reached.1)) last ∧
      String.ofList reached.1 ∉ typedefs := by
  -- a base that is looked up successfully has no leading qualifiers
  have hbare {base : List Char} (hmem : String.ofList base ∈ typedefs) :
      dropQualifiers base = base := by
    simpa using (hnames _ hmem).isBase.bare
  induction hwalk with
  | again hmem =>
    obtain ⟨hin, hcircle⟩ := hvisited _ hmem
    rw [hbare hin] at hcircle hends
    exact absurd hcircle hends.not_transGen
  | unknown _ hnone =>
    exact ⟨hdivided, hends, (WellFormed.getElem?_eq_none hdivided.trim_base).1 hnone⟩
  | @follow visited base suffix _ target htarget _ _ _ ih =>
    rw [trimmed_ofList hdivided.trim_base] at htarget
    have hin := Table.mem_of_getElem? htarget
    have hstep : BuiltOn typedefs (String.ofList base) (String.ofList (baseName target)) :=
      ⟨target, htarget, rfl⟩
    rw [hbare hin] at hends hvisited
    have hends' := hends.step hstep
    have htrim : Text.trim target.toList ≠ [] := by
      -- a typedef for nothing would end there
      intro hnil
      have hempty : String.ofList (baseName target) = "" := by
        rw [baseName, hnil]
        decide +kernel
      rw [hempty] at hends'
      refine hlast (hends'.eq_of_not_mem fun hmem => ?_)
      exact (hnames "" hmem).isBase.ne_nil rfl
    refine ih ((Divided.splitSuffix (Text.trim_trim _) htrim).follow hdivided) hends' ?_
    intro v hv
    rcases List.mem_cons.1 hv with rfl | hv
    · exact ⟨hin, .single hstep⟩
    · exact ⟨(hvisited v hv).1, (hvisited v hv).2.tail hstep⟩

/-! ### Records -/

/-- Typedefs and records are called by names. -/
structure Declarations.WellNamed (d : Declarations) : Prop where
  typedefs : ∀ name ∈ d.typedefs, IsName name
  structs : ∀ name ∈ d.structs, IsName name

/-- The layout of the record that is left of a type without its qualifiers, pointers and
typedefs. -/
def HasLayout (d : Declarations) (type : String) (layout : List TypedName) : Prop :=
  ∃ record, EndsAt d.typedefs (String.ofList (baseName type)) record ∧
    d.fields? record = some layout

namespace Declarations

variable (d : Declarations)

/-- The resolved type has no leading qualifiers. -/
def isPlain (type : String) : Bool := (leadingPart (d.resolveType type)).isEmpty

variable {d}

/-- **A record is found under names only**, if they are called so, or behind a keyword. -/
theorem WellNamed.isBase (h : d.WellNamed) {s : List Char} (htrim : Text.trim s = s)
    {layout : List TypedName} (hlayout : d.fields? (String.ofList s) = some layout) : IsBase s := by
  have hname {name : String} {layout : List TypedName} (hget : d.structs[name]? = some layout) :
      IsBase name.toList := (h.structs _ (Table.mem_of_getElem? hget)).isBase
  rw [fields?, trimmed_ofList htrim] at hlayout
  rcases Option.or_eq_some_iff.1 hlayout with hget | ⟨-, hget⟩
  · simpa using hname hget
  have hkeyword {c : Char} {w rest : List Char} (hc : c = 's' ∨ c = 'u')
      (hafter : Text.after? (c :: w) s = some rest) : IsBase s := by
    rw [Text.after?_eq_some.1 hafter]
    rcases hc with rfl | rfl <;> exact .of_head (by decide) (by decide)
  simp only [recordName, String.toList_ofList, htrim] at hget
  cases hstruct : Text.after? "struct ".toList s with
  | some rest => exact hkeyword (.inl rfl) hstruct
  | none =>
    cases hunion : Text.after? "union ".toList s with
    | some rest => exact hkeyword (.inr rfl) hunion
    | none =>
      rw [hstruct, hunion] at hget
      simpa using hname hget

theorem WellNamed.isBase_of_endsAt (h : d.WellNamed) {base : List Char}
    (htrim : Text.trim base = base) {record : String} {layout : List TypedName}
    (hends : EndsAt d.typedefs (String.ofList base) record)
    (hrecord : d.fields? record = some layout) : IsBase base := by
  rcases hends.path.cases_head with rfl | ⟨_, hstep, -⟩
  · exact h.isBase htrim hrecord
  · simpa using (h.typedefs _ hstep.mem).isBase

end Declarations

namespace HasLayout

variable {d : Declarations} {type : String} {layout : List TypedName}

theorem isBase (hd : d.WellNamed) (h : HasLayout d type layout) : IsBase (baseName type) := by
  obtain ⟨record, hends, hrecord⟩ := h
  exact hd.isBase_of_endsAt (trim_baseName type) hends hrecord

theorem trim_ne_nil (hd : d.WellNamed) (h : HasLayout d type layout) :
    Text.trim type.toList ≠ [] := by
  intro hnil
  refine (h.isBase hd).ne_nil ?_
  rw [baseName, hnil]
  decide +kernel

/-- **The base that a type is resolved to**: with its leading qualifiers it may be no typedef, and
without them it comes down to the same record. -/
theorem lastBase (hd : d.WellNamed) (h : HasLayout d type layout) :
    ∃ suffix, Divided (d.lastBase type) suffix ∧ IsBase (dropQualifiers (d.lastBase type)) ∧
      d.resolveType type = String.ofList (leadingPart type ++ (d.lastBase type ++ suffix)) ∧
      (dropQualifiers (d.lastBase type) = d.lastBase type →
        d.fields? (String.ofList (d.lastBase type)) = some layout) := by
  have htrim := h.trim_ne_nil hd
  have hbase := h.isBase hd
  obtain ⟨record, hends, hrecord⟩ := h
  have hne : record ≠ "" := by
    rintro rfl
    exact (hd.isBase (s := []) rfl hrecord).ne_nil rfl
  obtain ⟨_, hwalk, -⟩ := exists_walk (.nil d.typedefs) (trim_baseName type) (trailingPart type)
  obtain ⟨hdivided, hends', hnot⟩ := hwalk.endsAt hd.typedefs hne (divided_parts htrim)
    (by rwa [hbase.bare]) fun v hv => absurd hv List.not_mem_nil
  change Divided (d.lastBase type) _ at hdivided
  change EndsAt d.typedefs (String.ofList (dropQualifiers (d.lastBase type))) record at hends'
  change String.ofList (d.lastBase type) ∉ d.typedefs at hnot
  refine ⟨_, hdivided, ?_, d.resolveType_parts type, fun hbare => ?_⟩
  · exact hd.isBase_of_endsAt (trim_dropQualifiers hdivided.trim_base) hends' hrecord
  · rw [hbare] at hends'
    rwa [← hends'.eq_of_not_mem hnot]

/-- A resolved type is looked up up to its suffix. -/
theorem splitSuffix_resolveType (hd : d.WellNamed) (h : HasLayout d type layout) :
    Text.trim (d.resolveType type).toList = (d.resolveType type).toList ∧
      (splitSuffix (d.resolveType type).toList).1 = leadingPart type ++ d.lastBase type := by
  obtain ⟨suffix, hdivided, hbase, hresolved, -⟩ := h.lastBase hd
  have hleading := leading_leadingPart type
  rw [hresolved, String.toList_ofList]
  exact ⟨hdivided.trim_append hleading, hdivided.splitSuffix_append hbase hleading⟩

/-- A resolved type has no leading qualifiers if neither the type has any nor the base that its
typedefs lead to. -/
theorem isPlain_iff (hd : d.WellNamed) (h : HasLayout d type layout) :
    d.isPlain type = true ↔
      leadingPart type = [] ∧ dropQualifiers (d.lastBase type) = d.lastBase type := by
  obtain ⟨suffix, hdivided, -⟩ := h.lastBase hd
  obtain ⟨htrim, hsplit⟩ := h.splitSuffix_resolveType hd
  rw [← (leading_leadingPart type).dropQualifiers_append_eq_self hdivided.flush,
    ← splitQualifiers_eq_nil_iff, Declarations.isPlain, List.isEmpty_iff, ← hsplit]
  conv_lhs => rw [leadingPart, htrim]

/-- **The fields of a type are known exactly if it is resolved to one without leading
qualifiers.** -/
theorem fieldType?_eq (hd : d.WellNamed) (h : HasLayout d type layout) (field : String) :
    d.fieldType? type field =
      if d.isPlain type then (layout.find? (·.name == field)).map (·.type) else none := by
  obtain ⟨suffix, hdivided, hbase, -, hfields⟩ := h.lastBase hd
  have hleading := leading_leadingPart type
  have hlookup : d.fieldType? type field =
      (d.fields? (String.ofList (leadingPart type ++ d.lastBase type))).bind fun fields =>
        (fields.find? (·.name == field)).map (·.type) := by
    rw [← (h.splitSuffix_resolveType hd).2]
    rfl
  by_cases hplain : d.isPlain type = true
  · obtain ⟨hnil, hbare⟩ := (h.isPlain_iff hd).1 hplain
    rw [if_pos hplain, hlookup, hnil, List.nil_append, hfields hbare, Option.bind_some]
  · rw [if_neg hplain, hlookup]
    cases hfound : d.fields? (String.ofList (leadingPart type ++ d.lastBase type)) with
    | none => rfl
    | some found =>
      -- what a record is found under has no leading qualifiers
      have htrim := (hdivided.without_suffix hbase.ne_nil_of_dropQualifiers).trim_append hleading
      rw [List.append_nil] at htrim
      have hbare := (hd.isBase htrim hfound).bare
      rw [hleading.dropQualifiers_append_eq_self hdivided.flush] at hbare
      exact absurd ((h.isPlain_iff hd).2 hbare) hplain

end HasLayout

/-! ### Qualifiers around a type -/

namespace TypeSpelling

variable {p base suffix q s : List Char}

/-- **A type is divided where it is put together.** -/
theorem parts_eq {type : String} (hp : Leading p) (h : Divided base suffix) (hbase : IsBase base)
    (htrim : Text.trim type.toList = p ++ (base ++ suffix)) :
    leadingPart type = p ∧ baseName type = base ∧ trailingPart type = suffix := by
  have hsplit : (splitSuffix (Text.trim type.toList)).1 = p ++ base := by
    rw [htrim]
    exact h.splitSuffix_append (by rwa [hbase.bare]) hp
  have hname : baseName type = base := by
    rw [baseName, hsplit, hp.dropQualifiers_append h.flush, hbase.bare]
  have hparts := (splitSuffix_parts (Text.trim type.toList)).1
  have hparts' := (splitQualifiers_parts (splitSuffix (Text.trim type.toList)).1).1
  change _ = leadingPart type ++ baseName type at hparts'
  change _ = _ ++ trailingPart type at hparts
  rw [hsplit, hname] at hparts'
  rw [hsplit, htrim, ← List.append_assoc] at hparts
  exact ⟨(List.append_cancel_right hparts').symm, hname, (List.append_cancel_left hparts).symm⟩

/-- A text without stars and parentheses. -/
def IsUnmarked (s : List Char) : Prop := ∀ c ∈ s, c ≠ '(' ∧ c ≠ ')' ∧ c ≠ '*'

instance (s : List Char) : Decidable (IsUnmarked s) := List.decidableBAll _ s

theorem isUnmarked_nil : IsUnmarked [] := by simp [IsUnmarked]

theorem IsUnmarked.markersFrom_eq (h : IsUnmarked s) (pos nesting : Nat) :
    markersFrom pos nesting s = [] ∧ nestingAfter nesting s = nesting := by
  induction s generalizing pos with
  | nil => exact ⟨rfl, rfl⟩
  | cons c s ih =>
    obtain ⟨hopen, hclose, hstar⟩ := h c List.mem_cons_self
    rw [markersFrom_cons_of_ne hopen hclose hstar, nestingAfter_cons_of_ne hopen hclose]
    exact ih (fun d hd => h d (List.mem_cons_of_mem c hd)) (pos + 1)

theorem length_markersFrom (pos pos' nesting : Nat) (s : List Char) :
    (markersFrom pos nesting s).length = (markersFrom pos' nesting s).length := by
  fun_induction markersFrom pos nesting s generalizing pos' with
  | case1 => rfl
  | case2 pos nesting s ih => exact ih (pos' + 1)
  | case3 pos nesting s ih => exact ih (pos' + 1)
  | case4 pos s ih => simp [markersFrom, ih (pos' + 1)]
  | case5 pos nesting s hnesting ih => simp [markersFrom, hnesting, ih (pos' + 1)]
  | case6 pos nesting c s hopen hclose hstar ih =>
    rw [markersFrom_cons_of_ne hopen hclose hstar, ih (pos' + 1)]

theorem isUnmarked_qualifier (hq : q ∈ qualifiers) :
    IsUnmarked (' ' :: q) ∧ IsUnmarked (q ++ [' ']) := by
  have hall : ∀ q ∈ qualifiers, IsUnmarked (' ' :: q) ∧ IsUnmarked (q ++ [' ']) := by decide
  exact hall q hq

end TypeSpelling

theorem isPointer_unmarked {p f : List Char} (hp : IsUnmarked p) (hf : IsUnmarked f)
    (type : String) : isPointer (String.ofList (p ++ (type.toList ++ f))) = isPointer type := by
  rw [isPointer, isPointer, pointerDepth, pointerDepth, String.toList_ofList, pointerMarkers,
    pointerMarkers, markersFrom_append, markersFrom_append, (hp.markersFrom_eq _ _).1,
    (hp.markersFrom_eq 0 0).2, (hf.markersFrom_eq _ _).1, List.nil_append, List.append_nil,
    length_markersFrom _ 0 0]

theorem Divided.qualifier {base suffix q : List Char} (h : Divided base suffix)
    (hq : q ∈ qualifiers) : Divided base (suffix ++ ' ' :: q) := by
  have htrailing : Trailing (' ' :: q) :=
    (Trailing.nil.filler (c := ' ') (by decide)).qualifier ⟨' ', rfl, by decide⟩ hq
  have hne := ne_nil_of_mem_qualifiers hq
  refine ⟨h.bare, h.trailing.append htrailing, ?_, ?_, ?_⟩
  · rw [← List.append_assoc]
    exact h.start.append_of_ne_nil h.ne_nil _
  · rw [List.reverse_append, List.reverse_cons, List.append_assoc]
    refine Text.Flush.append_of_ne_nil (fun c hc => ?_) (by simpa using hne) _
    have hmem := List.mem_reverse.1 (List.mem_of_mem_head? hc)
    exact (Bool.or_eq_false_iff.1 (isFiller_of_mem_qualifier hq hmem)).2
  · rw [← List.append_assoc]
    exact List.append_ne_nil_of_left_ne_nil h.ne_nil _

namespace HasLayout

variable {d : Declarations} {type : String} {layout : List TypedName} {q : List Char}

/-- A qualifier in front of a type is in front of what the type is resolved to. -/
theorem parts_qualifier_append (hd : d.WellNamed) (h : HasLayout d type layout)
    (htrimmed : Text.trimmed type = type) (hq : q ∈ qualifiers) :
    leadingPart (String.ofList q ++ " " ++ type) = q ++ ' ' :: leadingPart type ∧
      baseName (String.ofList q ++ " " ++ type) = baseName type ∧
      trailingPart (String.ofList q ++ " " ++ type) = trailingPart type := by
  have hdivided := divided_parts (h.trim_ne_nil hd)
  have hleading : Leading (q ++ ' ' :: leadingPart type) := by
    show Leading (q ++ ' ' :: ([] ++ leadingPart type))
    exact .qualifier hq (by simp) (leading_leadingPart type)
  refine parts_eq hleading hdivided (h.isBase hd) ?_
  have hparts := trim_parts type
  rw [trim_toList htrimmed] at hparts
  have happend : (String.ofList q ++ " " ++ type).toList =
      q ++ ' ' :: leadingPart type ++ (baseName type ++ trailingPart type) := by
    simp [hparts]
  rw [happend, hdivided.trim_append hleading]

theorem parts_append_qualifier (hd : d.WellNamed) (h : HasLayout d type layout)
    (htrimmed : Text.trimmed type = type) (hq : q ∈ qualifiers) :
    leadingPart (type ++ " " ++ String.ofList q) = leadingPart type ∧
      baseName (type ++ " " ++ String.ofList q) = baseName type ∧
      trailingPart (type ++ " " ++ String.ofList q) = trailingPart type ++ ' ' :: q := by
  have hdivided := (divided_parts (h.trim_ne_nil hd)).qualifier hq
  have hleading := leading_leadingPart type
  refine parts_eq hleading hdivided (h.isBase hd) ?_
  have hparts := trim_parts type
  rw [trim_toList htrimmed] at hparts
  have happend : (type ++ " " ++ String.ofList q).toList =
      leadingPart type ++ (baseName type ++ (trailingPart type ++ ' ' :: q)) := by
    simp [hparts]
  rw [happend, hdivided.trim_append hleading]

theorem of_baseName {type' : String} (h : HasLayout d type layout)
    (heq : baseName type' = baseName type) : HasLayout d type' layout := by
  rwa [HasLayout, heq]

/-- **A qualifier in front of a type hides its fields.** -/
theorem qualifier_append (hd : d.WellNamed) (h : HasLayout d type layout)
    (htrimmed : Text.trimmed type = type) (hq : q ∈ qualifiers) :
    d.isPointerType (String.ofList q ++ " " ++ type) = d.isPointerType type ∧
      ∀ field, d.fieldType? (String.ofList q ++ " " ++ type) field = none := by
  obtain ⟨hleading, hbase, htrailing⟩ := h.parts_qualifier_append hd htrimmed hq
  have h' := h.of_baseName hbase
  have hresolved : d.resolveType (String.ofList q ++ " " ++ type) =
      String.ofList (q ++ [' '] ++ ((d.resolveType type).toList ++ [])) := by
    rw [d.resolveType_parts, d.resolveType_parts, hleading, hbase, htrailing]
    simp
  constructor
  · rw [Declarations.isPointerType, hresolved,
      isPointer_unmarked (isUnmarked_qualifier hq).2 isUnmarked_nil, Declarations.isPointerType]
  · intro field
    rw [h'.fieldType?_eq hd, if_neg]
    intro hplain
    have hnil := ((h'.isPlain_iff hd).1 hplain).1
    rw [hleading] at hnil
    cases List.append_eq_nil_iff.1 hnil |>.2

/-- **A qualifier behind a type changes nothing.** -/
theorem append_qualifier (hd : d.WellNamed) (h : HasLayout d type layout)
    (htrimmed : Text.trimmed type = type) (hq : q ∈ qualifiers) :
    d.isPointerType (type ++ " " ++ String.ofList q) = d.isPointerType type ∧
      ∀ field, d.fieldType? (type ++ " " ++ String.ofList q) field = d.fieldType? type field := by
  obtain ⟨hleading, hbase, htrailing⟩ := h.parts_append_qualifier hd htrimmed hq
  have h' := h.of_baseName hbase
  have hresolved : d.resolveType (type ++ " " ++ String.ofList q) =
      String.ofList ([] ++ ((d.resolveType type).toList ++ ' ' :: q)) := by
    rw [d.resolveType_parts, d.resolveType_parts, hleading, hbase, htrailing,
      followTypedefs_append]
    simp
  have hlast : d.lastBase (type ++ " " ++ String.ofList q) = d.lastBase type := by
    rw [Declarations.lastBase, hbase, htrailing, followTypedefs_append]
    rfl
  constructor
  · rw [Declarations.isPointerType, hresolved,
      isPointer_unmarked isUnmarked_nil (isUnmarked_qualifier hq).1, Declarations.isPointerType]
  · intro field
    have hplain : d.isPlain (type ++ " " ++ String.ofList q) = d.isPlain type := by
      rw [Bool.eq_iff_iff, h'.isPlain_iff hd, h.isPlain_iff hd, hleading, hlast]
    rw [h'.fieldType?_eq hd, h.fieldType?_eq hd, hplain]

end HasLayout

end TestSynth
