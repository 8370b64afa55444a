import TestSynth.Proofs.Acyclic
import TestSynth.Proofs.TypedefWalk

/-!
# Types that are resolved already

What a type is resolved to is put together from the leading qualifiers of the type, the base that is
reached and all suffixes on the way.  Resolved once more, it is split anew, and at another place if
the base has leading qualifiers itself: those of a type are kept aside, those of what a typedef
stands for are not.

* `Divided` : a base and a suffix that are split where they are put together.
* `TypeSpelling.dropQualifiers_splitSuffix` : so are they behind any leading qualifiers.
* `Walk.not_mem_reached` : without circles, the walk ends at a base that is no typedef.
* `Declarations.resolveType_resolveType_iff` : which types stay as they are when they are resolved
  again, and which tables resolve all types at once.
-/

namespace TestSynth

open TypeSpelling
open Renaming (isFiller)
open Text (Flush)

/-! ### Types as they are divided -/

/-- A base and a suffix that a type may be split into: nothing more can be split off behind the
base, and there are no blanks at the ends. -/
structure Divided (base suffix : List Char) : Prop where
  bare : (splitSuffix base).1 = base
  trailing : Trailing suffix
  start : Flush (base ++ suffix)
  stop : Flush suffix.reverse
  ne_nil : base ++ suffix ≠ []

namespace Divided

variable {base inner suffix p s : List Char}

theorem splitSuffix (hs : Text.trim s = s) (hne : s ≠ []) :
    Divided (splitSuffix s).1 (splitSuffix s).2 := by
  obtain ⟨hparts, htrailing⟩ := splitSuffix_parts s
  obtain ⟨hstart, hend⟩ := Text.trim_eq_self_iff.1 hs
  refine ⟨splitSuffix_splitSuffix s, htrailing, hparts ▸ hstart, ?_, hparts ▸ hne⟩
  rw [hparts, List.reverse_append] at hend
  exact hend.of_append

theorem flush (h : Divided base suffix) : Flush base := h.start.of_append

theorem isFiller_getLast? (h : Divided base suffix) {c : Char} (hc : base.getLast? = some c) :
    isFiller c = false :=
  isFiller_getLast?_splitSuffix base (by rwa [h.bare])

theorem solid (h : Divided base suffix) (hne : base ≠ []) : Solid base :=
  ⟨_, List.getLast_mem hne, h.isFiller_getLast? (List.getLast?_eq_getLast_of_ne_nil hne)⟩

theorem trim_base (h : Divided base suffix) : Text.trim base = base := by
  refine Text.trim_eq_self_iff.2 ⟨h.flush, fun c hc => ?_⟩
  rw [List.head?_reverse] at hc
  exact (Bool.or_eq_false_iff.1 (h.isFiller_getLast? hc)).2

/-- The leading qualifiers of a base may be kept aside. -/
theorem dropQualifiers (h : Divided base suffix) : Divided (dropQualifiers base) suffix := by
  obtain ⟨p, hp, hleading⟩ := leading_dropQualifiers base
  rcases eq_or_ne (TypeSpelling.dropQualifiers base) [] with hnil | hne
  · -- a base does not end in the blank behind a qualifier
    rw [hnil, List.append_nil] at hp
    cases hlast : p.getLast? with
    | none =>
      rw [List.getLast?_eq_none_iff] at hlast
      rw [hlast] at hp
      rw [hnil, ← hp]
      exact h
    | some c =>
      have := h.isFiller_getLast? (hp ▸ hlast)
      rw [hleading.isFiller_getLast? hlast] at this
      cases this
  · refine ⟨?_, h.trailing, (flush_dropQualifiers h.flush).append_of_ne_nil hne suffix, h.stop,
      List.append_ne_nil_of_left_ne_nil hne suffix⟩
    have hlast : base.getLast? = (TypeSpelling.dropQualifiers base).getLast? := by
      conv_lhs => rw [hp]
      exact List.getLast?_append_of_ne_nil p hne
    have hbase := (splitSuffix_eq_self_iff fun c => h.isFiller_getLast?).1 h.bare
    refine (splitSuffix_eq_self_iff fun c hc => h.isFiller_getLast? (hlast.trans hc)).2 fun hends =>
      hbase ?_
    rw [hp]
    exact hends.append p

theorem follow (h : Divided base inner) {base' : List Char} (h' : Divided base' suffix) :
    Divided base (inner ++ suffix) := by
  refine ⟨h.bare, h.trailing.append h'.trailing, ?_, ?_, ?_⟩
  · rw [← List.append_assoc]
    exact h.start.append_of_ne_nil h.ne_nil suffix
  · rw [List.reverse_append]
    exact h'.stop.append h.stop
  · rw [← List.append_assoc]
    exact List.append_ne_nil_of_left_ne_nil h.ne_nil suffix

theorem without_suffix (h : Divided base suffix) (hne : base ≠ []) : Divided base [] :=
  ⟨h.bare, .nil, by rw [List.append_nil]; exact h.flush, Text.flush_nil,
    by rwa [List.append_nil]⟩

theorem eq_base (h : Divided base suffix) (hbare : (TypeSpelling.splitSuffix s).1 = s)
    (hhead : ∃ c, s.head? = some c ∧ isFiller c = false) (heq : s = base ++ suffix) : base = s := by
  obtain ⟨c, hc, hfiller⟩ := hhead
  rcases eq_or_ne base [] with rfl | hne
  · rw [heq, List.nil_append] at hc
    rw [h.trailing.isFiller_head? hc] at hfiller
    cases hfiller
  · rw [heq, h.trailing.splitSuffix_append (h.solid hne), h.bare] at hbare
    exact hbare.trans heq.symm

theorem trim_append (h : Divided base suffix) (hp : Leading p) :
    Text.trim (p ++ (base ++ suffix)) = p ++ (base ++ suffix) := by
  refine Text.trim_eq_self_iff.2 ⟨hp.flush_append h.start, ?_⟩
  rw [List.reverse_append, List.reverse_append, List.append_assoc]
  rcases eq_or_ne suffix [] with rfl | hne
  · have hbase : base ≠ [] := by simpa using h.ne_nil
    have hend := (Text.trim_eq_self_iff.1 h.trim_base).2
    exact hend.append_of_ne_nil (by simpa using hbase) _
  · exact h.stop.append_of_ne_nil (by simpa using hne) _

end Divided

/-! ### Types as they are put together -/

namespace TypeSpelling

variable {p base suffix : List Char}

/-- With qualifiers in front, something can only be split off a base that is a qualifier itself,
perhaps behind stars. -/
theorem splitSuffix_leading_append (hp : Leading p) (hbare : (splitSuffix base).1 = base)
    (hne : base ≠ []) :
    (splitSuffix (p ++ base)).1 = p ++ base ∨
      ∃ z, ∃ w ∈ qualifiers, base = z ++ w ∧ ∀ c ∈ z, isFiller c = true := by
  have hlast {c : Char} (hc : base.getLast? = some c) : isFiller c = false :=
    isFiller_getLast?_splitSuffix base (by rwa [hbare])
  have hlast' : ∀ c, (p ++ base).getLast? = some c → isFiller c = false := by
    intro c hc
    rw [List.getLast?_append_of_ne_nil p hne] at hc
    exact hlast hc
  rw [splitSuffix_eq_self_iff hlast', or_iff_not_imp_left, not_not]
  rintro ⟨z, w, hw, heq, ⟨c, hc, hfiller⟩, -⟩
  rcases List.append_eq_append_iff.1 heq with ⟨z', rfl, hbase⟩ | ⟨y, hy, hbase⟩
  · refine ⟨z', w, hw, hbase, ?_⟩
    rcases eq_or_ne z' [] with rfl | hz'
    · simp
    -- if there were more than stars and blanks in front, the base would end in a qualifier as well
    rw [List.getLast?_append_of_ne_nil p hz'] at hc
    have hends := (splitSuffix_eq_self_iff fun c => hlast).1 hbare
    by_contra hsolid
    push Not at hsolid
    obtain ⟨d, hd, hnot⟩ := hsolid
    have hsolid : Solid z' := ⟨d, hd, Bool.eq_false_iff.2 hnot⟩
    exact hends ⟨z', w, hw, hbase, ⟨c, hc, hfiller⟩, (solid_reverse.2 hsolid).hasBase⟩
  · refine ⟨[], base, ?_, rfl, by simp⟩
    cases hylast : y.getLast? with
    | none =>
      rw [List.getLast?_eq_none_iff.1 hylast, List.nil_append] at hbase
      exact hbase ▸ hw
    | some d =>
      have hd : d ∈ w := hbase ▸ List.mem_append_left base (List.mem_of_getLast? hylast)
      have hnot := isFiller_of_mem_qualifier hw hd
      rw [hp.isFiller_getLast? (c := d) (by rw [hy, List.getLast?_append, hylast, Option.some_or])]
        at hnot
      cases hnot

theorem dropQualifiers_splitSuffix_qualifier {q f : List Char} (hq : q ∈ qualifiers)
    (hf : Trailing f) : dropQualifiers (splitSuffix (q ++ f)).1 ∈ qualifiers := by
  rw [splitSuffix_qualifier_append hq hf,
    dropQualifiers_of_word fun c => isFiller_of_mem_qualifier hq]
  exact hq

/-- Where there is no base, a qualifier is left, or nothing but stars and blanks. -/
theorem dropQualifiers_splitSuffix_of_nil (hp : Leading p) (hsuffix : Trailing suffix) :
    dropQualifiers (splitSuffix (p ++ suffix)).1 ∈ qualifiers ∨
      ∀ c, (dropQualifiers (splitSuffix (p ++ suffix)).1).head? = some c → isFiller c = true := by
  rcases eq_or_ne p [] with rfl | hne
  · have hhead : ∀ c, (splitSuffix suffix).1.head? = some c → isFiller c = true := by
      intro c hc
      refine hsuffix.isFiller_head? (c := c) ?_
      rw [(splitSuffix_parts suffix).1, List.head?_append, hc, Option.some_or]
    rw [List.nil_append, dropQualifiers_of_head? hhead]
    exact .inr hhead
  · obtain ⟨q, hq, f, rfl, hf, -⟩ := hp.exists_trailing hne
    rw [List.append_assoc]
    exact .inl (dropQualifiers_splitSuffix_qualifier hq (hf.append hsuffix))

/-- **The base of a type that is put together** is the base it is put together from, up to its
leading qualifiers, but for bases that are no names. -/
theorem dropQualifiers_splitSuffix (hp : Leading p) (h : Divided base suffix) :
    dropQualifiers (splitSuffix (p ++ (base ++ suffix))).1 = dropQualifiers base ∨
      dropQualifiers base = base ∧
        (dropQualifiers (splitSuffix (p ++ (base ++ suffix))).1 ∈ qualifiers ∨
          ∀ c, (dropQualifiers (splitSuffix (p ++ (base ++ suffix))).1).head? = some c →
            isFiller c = true) := by
  rcases eq_or_ne base [] with rfl | hne
  · rw [List.nil_append]
    exact .inr ⟨dropQualifiers_of_head? nofun, dropQualifiers_splitSuffix_of_nil hp h.trailing⟩
  rw [← List.append_assoc, h.trailing.splitSuffix_append ((h.solid hne).append_right p)]
  rcases splitSuffix_leading_append hp h.bare hne with heq | ⟨z, w, hw, rfl, hz⟩
  · rw [heq]
    exact .inl (hp.dropQualifiers_append h.flush)
  rcases eq_or_ne p [] with rfl | hpne
  · rw [List.nil_append, h.bare]
    exact .inl rfl
  -- behind its first qualifier, the leading part is split off with the base
  obtain ⟨q, hq, f, rfl, hf, hlast⟩ := hp.exists_trailing hpne
  have hlast' : ∃ c, (f ++ z).getLast? = some c ∧ isFiller c = true := by
    rcases eq_or_ne z [] with rfl | hzne
    · rwa [List.append_nil]
    · exact exists_getLast?_append
        ⟨_, List.getLast?_eq_getLast_of_ne_nil hzne, hz _ (List.getLast_mem hzne)⟩ f
  have htrailing := (hf.append (.of_fillers hz)).qualifier hlast' hw
  rw [List.append_assoc] at htrailing
  rw [List.append_assoc]
  refine .inr ⟨?_, .inl (dropQualifiers_splitSuffix_qualifier hq htrailing)⟩
  cases z with
  | nil => exact dropQualifiers_of_word fun c => isFiller_of_mem_qualifier hw
  | cons d z =>
    refine dropQualifiers_of_head? fun c hc => ?_
    cases hc
    exact hz d List.mem_cons_self

end TypeSpelling

/-! ### Typedefs without circles -/

/-- What a typedef is called: nothing can be split off around it, it does not begin with a star, and
it is no qualifier. -/
structure IsName (name : String) : Prop where
  base : baseName name = name.toList
  head : ∃ c, name.toList.head? = some c ∧ isFiller c = false
  not_qualifier : name.toList ∉ qualifiers

theorem IsName.of_word {name : String} (hne : name ≠ "")
    (hword : ∀ c ∈ name.toList, isFiller c = false) (hnot : name.toList ∉ qualifiers) :
    IsName name := by
  have hflush {s : List Char} (hs : ∀ c ∈ s, isFiller c = false) : Flush s := fun c hc =>
    (Bool.or_eq_false_iff.1 (hs c (List.mem_of_mem_head? hc))).2
  have htrim : Text.trim name.toList = name.toList := Text.trim_eq_self_iff.2
    ⟨hflush hword, hflush fun c hc => hword c (List.mem_reverse.1 hc)⟩
  refine ⟨?_, ?_, hnot⟩
  · rw [baseName, htrim, splitSuffix_of_word hword, dropQualifiers_of_word hword]
  · obtain ⟨c, s, hs⟩ := List.exists_cons_of_ne_nil (mt String.toList_eq_nil_iff.1 hne)
    exact ⟨c, by rw [hs]; rfl, hword c (hs ▸ List.mem_cons_self)⟩

theorem IsName.trim_ne_nil {name : String} (h : IsName name) : Text.trim name.toList ≠ [] := by
  rw [← h.base, trim_baseName, h.base]
  obtain ⟨c, hc, -⟩ := h.head
  rintro hnil
  rw [hnil] at hc
  cases hc

/-- What a typedef stands for is built on a name: it has the name between qualifiers and
pointers. -/
def BuiltOn (typedefs : Table String) (name name' : String) : Prop :=
  ∃ target, typedefs[name]? = some target ∧ String.ofList (baseName target) = name'

/-- Typedefs that are called by names and stand for something, without circles. -/
structure WellFormed (typedefs : Table String) : Prop where
  names : ∀ name ∈ typedefs, IsName name
  targets : ∀ name target : String, typedefs[name]? = some target → Text.trim target.toList ≠ []
  acyclic : Acyclic (BuiltOn typedefs)

namespace WellFormed

variable {typedefs : Table String} {visited : List (List Char)} {base suffix : List Char}

theorem getElem?_eq_none (h : Text.trim base = base) :
    typedefs[Text.trimmed (String.ofList base)]? = none ↔ String.ofList base ∉ typedefs := by
  rw [trimmed_ofList h, Std.ExtTreeMap.mem_iff_isSome_getElem?, Option.not_isSome_iff_eq_none]

theorem dropQualifiers_of_mem (h : WellFormed typedefs) (htrim : Text.trim base = base)
    (hbare : (splitSuffix base).1 = base) (hmem : String.ofList base ∈ typedefs) :
    dropQualifiers base = base := by
  have := (h.names _ hmem).base
  rwa [baseName, String.toList_ofList, htrim, hbare] at this

end WellFormed

namespace Walk

variable {typedefs : Table String} {visited : List (List Char)} {base suffix : List Char}
  {lookups : Nat} {reached : List Char × List Char}

theorem divided
    (htargets : ∀ name target : String, typedefs[name]? = some target →
      Text.trim target.toList ≠ [])
    (hwalk : Walk typedefs visited base suffix lookups reached) (h : Divided base suffix) :
    Divided reached.1 reached.2 := by
  induction hwalk with
  | again => exact h
  | unknown => exact h
  | @follow visited base suffix _ target htarget _ _ _ ih =>
    exact ih ((Divided.splitSuffix (Text.trim_trim target.toList) (htargets _ _ htarget)).follow h)

/-- The base that a walk reaches is where it began, or that of what some typedef stands for. -/
theorem reached_base (hwalk : Walk typedefs visited base suffix lookups reached) :
    reached.1 = base ∨ ∃ name target : String, typedefs[name]? = some target ∧
      reached.1 = (splitSuffix (Text.trim target.toList)).1 := by
  induction hwalk with
  | again => exact .inl rfl
  | unknown => exact .inl rfl
  | follow _ htarget _ ih =>
    exact .inr (ih.elim (fun heq => ⟨_, _, htarget, heq⟩) id)

/-- **Without circles, a walk ends at a base that no typedef is called by.** -/
theorem not_mem_reached (hwf : WellFormed typedefs)
    (hwalk : Walk typedefs visited base suffix lookups reached) (hbase : Text.trim base = base)
    (hvisited : ∀ v ∈ visited, String.ofList v ∈ typedefs ∧ (String.ofList base ∈ typedefs →
      Relation.TransGen (BuiltOn typedefs) (String.ofList v) (String.ofList base))) :
    String.ofList reached.1 ∉ typedefs := by
  induction hwalk with
  | again hmem =>
    obtain ⟨hin, hpath⟩ := hvisited _ hmem
    exact absurd (hpath hin) (hwf.acyclic _)
  | unknown _ hnone => exact (WellFormed.getElem?_eq_none hbase).1 hnone
  | @follow visited base suffix _ target htarget _ _ _ ih =>
    rw [trimmed_ofList hbase] at htarget
    refine ih (trim_splitSuffix target.toList) fun v hv => ?_
    have hstep (hmem : String.ofList (splitSuffix (Text.trim target.toList)).1 ∈ typedefs) :
        BuiltOn typedefs (String.ofList base)
          (String.ofList (splitSuffix (Text.trim target.toList)).1) := by
      refine ⟨target, htarget, congrArg String.ofList ?_⟩
      exact hwf.dropQualifiers_of_mem (trim_splitSuffix _) (splitSuffix_splitSuffix _) hmem
    have hin := Table.mem_of_getElem? htarget
    rcases List.mem_cons.1 hv with rfl | hv
    · exact ⟨hin, fun hmem => .single (hstep hmem)⟩
    · obtain ⟨hv', hpath⟩ := hvisited v hv
      exact ⟨hv', fun hmem => (hpath hin).tail (hstep hmem)⟩

end Walk

/-! ### What resolving leaves -/

theorem divided_parts {type : String} (htype : Text.trim type.toList ≠ []) :
    Divided (baseName type) (trailingPart type) :=
  (Divided.splitSuffix (Text.trim_trim type.toList) htype).dropQualifiers

theorem WellFormed.reached {typedefs : Table String} (h : WellFormed typedefs)
    {base suffix : List Char} (hdivided : Divided base suffix) :
    Divided (followTypedefs typedefs base suffix).1 (followTypedefs typedefs base suffix).2 ∧
      String.ofList (followTypedefs typedefs base suffix).1 ∉ typedefs := by
  obtain ⟨lookups, hwalk, -⟩ := exists_walk (.nil typedefs) hdivided.trim_base suffix
  exact ⟨hwalk.divided h.targets hdivided,
    hwalk.not_mem_reached h hdivided.trim_base fun v hv => absurd hv List.not_mem_nil⟩

namespace Declarations

variable {d : Declarations} {type : String}

/-- The base at which the typedefs of a type come to an end. -/
def lastBase (d : Declarations) (type : String) : List Char :=
  (followTypedefs d.typedefs (baseName type) (trailingPart type)).1

theorem trim_resolveType (h : WellFormed d.typedefs) (htype : Text.trim type.toList ≠ []) :
    Text.trim (d.resolveType type).toList = (d.resolveType type).toList ∧
      Text.trim (d.resolveType type).toList ≠ [] := by
  have hreached := (h.reached (divided_parts htype)).1
  have htrim := hreached.trim_append (leading_leadingPart type)
  rw [resolveType_parts, String.toList_ofList, htrim]
  exact ⟨rfl, List.append_ne_nil_of_right_ne_nil _ hreached.ne_nil⟩

/-- **What is left is built on a typedef exactly if leading qualifiers hide one** where the
typedefs come to an end. -/
theorem baseName_resolveType_mem_iff (h : WellFormed d.typedefs)
    (htype : Text.trim type.toList ≠ []) :
    String.ofList (baseName (d.resolveType type)) ∈ d.typedefs ↔
      String.ofList (dropQualifiers (d.lastBase type)) ∈ d.typedefs := by
  obtain ⟨hdivided, hnot⟩ := h.reached (divided_parts htype)
  have hleading := leading_leadingPart type
  have hbase : baseName (d.resolveType type) = dropQualifiers (splitSuffix (leadingPart type ++
      ((followTypedefs d.typedefs (baseName type) (trailingPart type)).1 ++
        (followTypedefs d.typedefs (baseName type) (trailingPart type)).2))).1 := by
    show dropQualifiers (splitSuffix (Text.trim _)).1 = _
    rw [resolveType_parts, String.toList_ofList, hdivided.trim_append hleading]
  rw [hbase]
  change String.ofList (d.lastBase type) ∉ d.typedefs at hnot
  rcases dropQualifiers_splitSuffix hleading hdivided with heq | ⟨hself, hname⟩
  · rw [heq]
    rfl
  · -- what is left is no name, and no leading qualifiers hide a typedef
    change dropQualifiers (d.lastBase type) = d.lastBase type at hself
    rw [hself]
    refine iff_of_false (fun hmem => ?_) hnot
    have hisName := h.names _ hmem
    rcases hname with hqualifier | hhead
    · exact hisName.not_qualifier (by rwa [String.toList_ofList])
    · obtain ⟨c, hc, hfiller⟩ := hisName.head
      rw [String.toList_ofList] at hc
      rw [hhead c hc] at hfiller
      cases hfiller

/-- **A type without blanks at its ends is what it is resolved to exactly if it is built on no
typedef.** -/
theorem resolveType_eq_self_iff (h : WellFormed d.typedefs)
    (htrim : Text.trim type.toList = type.toList) (htype : Text.trim type.toList ≠ []) :
    d.resolveType type = type ↔ String.ofList (baseName type) ∉ d.typedefs := by
  have hdivided := divided_parts htype
  have hparts : type.toList = leadingPart type ++ (baseName type ++ trailingPart type) :=
    htrim ▸ trim_parts type
  constructor
  · intro hself hmem
    have hhead := (h.names _ hmem).head
    rw [String.toList_ofList] at hhead
    have hne : baseName type ≠ [] := by
      rintro hnil
      rw [hnil] at hhead
      obtain ⟨_, hc, -⟩ := hhead
      cases hc
    obtain ⟨hreached, hnot⟩ := h.reached (hdivided.without_suffix hne)
    have happend := followTypedefs_append d.typedefs (baseName type) [] (trailingPart type)
    rw [List.nil_append] at happend
    rw [← String.toList_inj, resolveType_parts, String.toList_ofList, hparts, happend] at hself
    generalize followTypedefs d.typedefs (baseName type) [] = reached at hself hreached hnot
    obtain ⟨base, suffix⟩ := reached
    -- the base would be what is reached from it, with a suffix that can be split off
    have hbase : baseName type = base ++ suffix := by
      have := List.append_cancel_left hself
      rw [← List.append_assoc] at this
      exact (List.append_cancel_right this).symm
    have hsame := hreached.eq_base hdivided.bare hhead hbase
    exact hnot (by rwa [hsame])
  · intro hnot
    rw [← String.toList_inj, resolveType_parts,
      Renaming.followTypedefs_of_none ((WellFormed.getElem?_eq_none hdivided.trim_base).2 hnot),
      String.toList_ofList, ← hparts]

/-- A typedef comes to an end at the base of its target, if that is no typedef. -/
theorem lastBase_eq (h : WellFormed d.typedefs) {name target : String}
    (htarget : d.typedefs[name]? = some target)
    (hnot : String.ofList (splitSuffix (Text.trim target.toList)).1 ∉ d.typedefs) :
    d.lastBase name = (splitSuffix (Text.trim target.toList)).1 := by
  have hname := Table.mem_of_getElem? htarget
  have hbase := (h.names name hname).base
  have hnext := trim_splitSuffix target.toList
  have hlookup : d.typedefs[Text.trimmed (String.ofList (baseName name))]? = some target := by
    rwa [trimmed_ofList (trim_baseName name), hbase, String.ofList_toList]
  have hnew : (splitSuffix (Text.trim target.toList)).1 ∉ [baseName name] := by
    rw [List.mem_singleton, hbase]
    rintro heq
    exact hnot (by rwa [heq, String.ofList_toList])
  have hwalk : Walk d.typedefs [] (baseName name) (trailingPart name) 2 _ :=
    .follow List.not_mem_nil hlookup
      (.unknown hnew ((WellFormed.getElem?_eq_none hnext).2 hnot))
  obtain ⟨_, hwalk', -⟩ := exists_walk (.nil d.typedefs) (trim_baseName name) (trailingPart name)
  rw [lastBase, (hwalk.unique hwalk').2]

/-- Leading qualifiers can only hide a typedef in what a typedef stands for. -/
theorem exists_leadingPart_ne_nil (h : WellFormed d.typedefs) (htype : Text.trim type.toList ≠ [])
    (hmem : String.ofList (dropQualifiers (d.lastBase type)) ∈ d.typedefs) :
    ∃ name target : String, d.typedefs[name]? = some target ∧
      String.ofList (baseName target) ∈ d.typedefs ∧ leadingPart target ≠ [] := by
  obtain ⟨hdivided, hnot⟩ := h.reached (divided_parts htype)
  obtain ⟨_, hwalk, -⟩ := exists_walk (.nil d.typedefs) (trim_baseName type) (trailingPart type)
  rcases hwalk.reached_base with heq | ⟨name, target, htarget, heq⟩
  · change d.lastBase type = baseName type at heq
    have hflush := (Text.trim_eq_self_iff.1 (trim_splitSuffix type.toList)).1
    rw [heq, baseName, dropQualifiers_dropQualifiers hflush, ← baseName, ← heq] at hmem
    exact absurd hmem hnot
  · change d.lastBase type = _ at heq
    have hbase := (splitQualifiers_parts (splitSuffix (Text.trim target.toList)).1).1
    rw [heq] at hmem
    refine ⟨name, target, htarget, hmem, fun hnil => hnot ?_⟩
    change _ = leadingPart target ++ baseName target at hbase
    rw [hnil, List.nil_append] at hbase
    change String.ofList (d.lastBase type) ∈ d.typedefs
    rw [heq, hbase]
    exact hmem

/-- **Resolving what is resolved changes nothing exactly if its base is no typedef**, that is, if no
leading qualifiers hide a typedef where the walk comes to an end; and it changes nothing for any
type exactly if no typedef stands for another one behind leading qualifiers. -/
theorem resolveType_resolveType_iff (d : Declarations) (h : WellFormed d.typedefs) :
    (∀ type : String, Text.trim type.toList ≠ [] →
      (d.resolveType (d.resolveType type) = d.resolveType type ↔
        String.ofList (baseName (d.resolveType type)) ∉ d.typedefs) ∧
      (d.resolveType (d.resolveType type) = d.resolveType type ↔
        String.ofList (dropQualifiers (d.lastBase type)) ∉ d.typedefs)) ∧
    ((∀ type : String, Text.trim type.toList ≠ [] →
        d.resolveType (d.resolveType type) = d.resolveType type) ↔
      ∀ name target : String, d.typedefs[name]? = some target →
        String.ofList (baseName target) ∈ d.typedefs → leadingPart target = []) := by
  have hfixed {type : String} (htype : Text.trim type.toList ≠ []) :
      d.resolveType (d.resolveType type) = d.resolveType type ↔
        String.ofList (baseName (d.resolveType type)) ∉ d.typedefs :=
    have ⟨htrim, hne⟩ := trim_resolveType h htype
    resolveType_eq_self_iff h htrim hne
  have hlast {type : String} (htype : Text.trim type.toList ≠ []) :
      d.resolveType (d.resolveType type) = d.resolveType type ↔
        String.ofList (dropQualifiers (d.lastBase type)) ∉ d.typedefs :=
    (hfixed htype).trans (not_congr (baseName_resolveType_mem_iff h htype))
  refine ⟨fun type htype => ⟨hfixed htype, hlast htype⟩, fun hall name target htarget hmem => ?_,
    fun hall type htype => (hlast htype).2 fun hmem => ?_⟩
  · -- if the walk ended at the target, it would end at a typedef behind qualifiers
    have hnext : String.ofList (splitSuffix (Text.trim target.toList)).1 ∉ d.typedefs →
        leadingPart target = [] := fun hnot => by
      have hname := (h.names name (Table.mem_of_getElem? htarget)).trim_ne_nil
      refine absurd ?_ ((hlast hname).1 (hall name hname))
      rw [lastBase_eq h htarget hnot]
      exact hmem
    refine by_contra fun hne => hne (hnext fun hin => hne ?_)
    have hself := h.dropQualifiers_of_mem (trim_splitSuffix _) (splitSuffix_splitSuffix _) hin
    have hparts := (splitQualifiers_parts (splitSuffix (Text.trim target.toList)).1).1
    change _ = leadingPart target ++ dropQualifiers _ at hparts
    rw [hself] at hparts
    exact List.append_left_eq_self.1 hparts.symm
  · obtain ⟨name, target, htarget, hbase, hne⟩ := exists_leadingPart_ne_nil h htype hmem
    exact hne (hall name target htarget hbase)

/-- A typedef for a qualified typedef. -/
def qualifiedTypedef : Declarations where
  typedefs := .ofList [("T", "const U"), ("U", "int")]

theorem wellFormed_qualifiedTypedef : WellFormed qualifiedTypedef.typedefs := by
  have hentries {name target : String} (h : qualifiedTypedef.typedefs[name]? = some target) :
      name = "T" ∧ target = "const U" ∨ name = "U" ∧ target = "int" := by
    have hlist : qualifiedTypedef.typedefs.toList = [("T", "const U"), ("U", "int")] := by
      decide +kernel
    have hmem := Table.mem_toList_of_getElem? h
    rw [hlist] at hmem
    simpa using hmem
  refine ⟨fun name hname => ?_, fun name target h => ?_,
    .of_rank (fun name => if name = "T" then 2 else if name = "U" then 1 else 0) ?_⟩
  · obtain ⟨target, h⟩ := Table.exists_of_mem hname
    obtain ⟨rfl, -⟩ | ⟨rfl, -⟩ := hentries h <;>
      exact .of_word (by decide) (Text.forall_mem (by decide)) (by decide)
  · obtain ⟨-, rfl⟩ | ⟨-, rfl⟩ := hentries h <;> decide
  · rintro name _ ⟨target, h, rfl⟩
    obtain ⟨rfl, rfl⟩ | ⟨rfl, rfl⟩ := hentries h <;> decide +kernel

/-- Pointers to the typedef that is qualified are resolved at once, but not all types are. -/
theorem resolveType_resolveType_qualifiedTypedef :
    WellFormed qualifiedTypedef.typedefs ∧ Text.trim "U *".toList ≠ [] ∧
      qualifiedTypedef.resolveType (qualifiedTypedef.resolveType "U *") =
        qualifiedTypedef.resolveType "U *" ∧
      ¬∀ type : String, Text.trim type.toList ≠ [] →
        qualifiedTypedef.resolveType (qualifiedTypedef.resolveType type) =
          qualifiedTypedef.resolveType type := by
  have htype : Text.trim "U *".toList ≠ [] := by decide
  obtain ⟨hfixed, hall⟩ :=
    qualifiedTypedef.resolveType_resolveType_iff wellFormed_qualifiedTypedef
  refine ⟨wellFormed_qualifiedTypedef, htype, ?_, ?_⟩
  · exact (hfixed "U *" htype).1.2 (by decide +kernel)
  · rw [hall]
    intro hunqualified
    exact absurd (hunqualified "T" "const U" (by decide +kernel) (by decide +kernel))
      (by decide +kernel)

/-- What the typedef of a qualified typedef is resolved to is still built on a typedef. -/
theorem not_fixed_qualifiedTypedef :
    WellFormed qualifiedTypedef.typedefs ∧ Text.trim "T".toList ≠ [] ∧
      qualifiedTypedef.resolveType "T" = "const U" ∧
      qualifiedTypedef.resolveType (qualifiedTypedef.resolveType "T") = "const int" ∧
      String.ofList (baseName (qualifiedTypedef.resolveType "T")) ∈ qualifiedTypedef.typedefs :=
  ⟨wellFormed_qualifiedTypedef, by decide, by decide +kernel, by decide +kernel,
    by decide +kernel⟩

end Declarations

end TestSynth
