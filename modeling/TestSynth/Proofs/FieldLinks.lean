import TestSynth.Proofs.RecordLayouts

/-!
# The links of a chain of fields

The fields of a chain are taken one after the other, and the link in front of each follows from the
type that the field before it is declared with.  Where a type is lost, all links behind it are dots.

* `Declarations.Leads` : fields that are declared one in the record of the other.
* `Declarations.takeFields_append` : a chain goes on with what is known behind its first fields.
* `Declarations.Leads.recordAfter_eq` : what that is.
* `Declarations.takeFields_of_leads` : the links of a chain, and what qualifiers change.
-/

namespace TestSynth

open TypeSpelling

/-! ### Chains -/

/-- Some fields taken one after the other, each through its link. -/
def Expr.taking (e : Expr) (chain : List (String × Bool)) : Expr :=
  chain.foldl (fun e link => .field e link.1 link.2) e

namespace Declarations

variable (d : Declarations)

/-- The record of a type declares a field with a type. -/
def Declares (owner field type : String) : Prop :=
  ∃ layout, HasLayout d owner layout ∧
    (layout.find? (·.name == field)).map (·.type) = some type

/-- Some fields that are declared one in the record of the other lead through types to a last
one. -/
inductive Leads : String → List String → List String → String → Prop
  | nil (type : String) : Leads type [] [] type
  | cons {owner field type last : String} {fields types : List String}
      (hfield : d.Declares owner field type) (hrest : Leads type fields types last) :
    Leads owner (field :: fields) (owner :: types) last

/-- The type that is known behind some fields. -/
def recordAfter (record : Option String) (fields : List String) : Option String :=
  fields.foldl (fun record field => record.bind fun record => d.fieldType? record field) record

/-- The link behind some fields; the first link is given. -/
def linkAfter (viaPointer : Bool) (record : Option String) (fields : List String) : Bool :=
  if fields.isEmpty then viaPointer else (d.recordAfter record fields).any d.isPointerType

theorem recordAfter_none (fields : List String) : d.recordAfter none fields = none := by
  induction fields with
  | nil => rfl
  | cons field fields ih => exact ih

/-- **A chain goes on with what is known behind its first fields.** -/
theorem takeFields_append (e : Expr) (viaPointer : Bool) (record : Option String)
    (passed fields : List String) :
    d.takeFields e viaPointer record (passed ++ fields) =
      d.takeFields (d.takeFields e viaPointer record passed)
        (d.linkAfter viaPointer record passed) (d.recordAfter record passed) fields := by
  induction passed generalizing e viaPointer record with
  | nil => rfl
  | cons field passed ih =>
    rw [List.cons_append, takeFields, ih]
    have hlink (type : Option String) (h : type = record.bind (d.fieldType? · field)) :
        d.linkAfter (type.any d.isPointerType) type passed =
          d.linkAfter viaPointer record (field :: passed) := by
      subst h
      cases passed <;> rfl
    rw [hlink _ rfl]
    rfl

theorem exists_takeFields_eq_taking (e : Expr) (viaPointer : Bool) (record : Option String)
    (fields : List String) :
    ∃ chain, chain.map Prod.fst = fields ∧
      d.takeFields e viaPointer record fields = e.taking chain := by
  induction fields generalizing e viaPointer record with
  | nil => exact ⟨[], rfl, rfl⟩
  | cons field fields ih =>
    obtain ⟨chain, hfields, hchain⟩ := ih (.field e field viaPointer)
      ((record.bind fun record => d.fieldType? record field).any d.isPointerType)
      (record.bind fun record => d.fieldType? record field)
    exact ⟨(field, viaPointer) :: chain, by rw [List.map_cons, hfields], hchain⟩

theorem takeFields_none (e : Expr) (fields : List String) :
    d.takeFields e false none fields = e.taking (fields.map fun field => (field, false)) := by
  induction fields generalizing e with
  | nil => rfl
  | cons field fields ih => exact ih _

variable {d}

/-- **The type of the last field is known exactly if no leading qualifiers hide a type on the
way.** -/
theorem Leads.recordAfter_eq (hd : d.WellNamed) {owner last : String} {passed types : List String}
    (h : d.Leads owner passed types last) :
    d.recordAfter (some owner) passed = if types.all d.isPlain then some last else none := by
  induction h with
  | nil => rfl
  | @cons owner field type last fields types hfield hrest ih =>
    obtain ⟨layout, hlayout, hfind⟩ := hfield
    have htype := hlayout.fieldType?_eq hd field
    rw [hfind] at htype
    show d.recordAfter (d.fieldType? owner field) fields = _
    rw [htype, List.all_cons]
    by_cases hplain : d.isPlain owner = true
    · rw [if_pos hplain, ih, hplain, Bool.true_and]
    · rw [if_neg hplain, recordAfter_none, Bool.eq_false_iff.2 hplain]
      rfl

theorem Leads.linkAfter_eq (hd : d.WellNamed) {owner last : String} {passed types : List String}
    (h : d.Leads owner passed types last) (hne : passed ≠ []) (viaPointer : Bool) :
    d.linkAfter viaPointer (some owner) passed =
      (types.all d.isPlain && d.isPointerType last) := by
  rw [linkAfter, if_neg (by simpa using hne), h.recordAfter_eq hd]
  cases types.all d.isPlain <;> rfl

/-- **The links of a chain follow the layouts of the records, unless leading qualifiers hide one of
them.**  Behind some fields that are declared one in the record of the other, the link is an arrow
exactly if the last of their types is a pointer and none of the types on the way is resolved to one
with leading qualifiers; in this case the chain goes on with the last type, in any other it goes on
with dots.  So a qualifier behind a type changes no link, but one in front of it keeps only the
link that follows from the type itself. -/
theorem takeFields_of_leads (d : Declarations) (hd : d.WellNamed) (e : Expr) (viaPointer : Bool) :
    (∀ (owner : String) (passed types : List String) (type : String),
      d.Leads owner passed types type → passed ≠ [] →
      (∀ (field : String) (rest : List String), ∃ later, later.map Prod.fst = rest ∧
        d.takeFields e viaPointer (some owner) (passed ++ field :: rest) =
          ((d.takeFields e viaPointer (some owner) passed).field field
            (types.all d.isPlain && d.isPointerType type)).taking later) ∧
      ∀ fields : List String, d.takeFields e viaPointer (some owner) (passed ++ fields) =
        d.takeFields (d.takeFields e viaPointer (some owner) passed)
          (types.all d.isPlain && d.isPointerType type)
          (if types.all d.isPlain then some type else none) fields) ∧
    ∀ (type : String) (layout : List TypedName), HasLayout d type layout →
      Text.trimmed type = type → ∀ q ∈ qualifiers,
      (d.isPointerType (type ++ " " ++ String.ofList q) = d.isPointerType type ∧
        ∀ fields : List String,
          d.takeFields e viaPointer (some (type ++ " " ++ String.ofList q)) fields =
            d.takeFields e viaPointer (some type) fields) ∧
      (d.isPointerType (String.ofList q ++ " " ++ type) = d.isPointerType type ∧
        ∀ (field : String) (fields : List String),
          d.takeFields e viaPointer (some (String.ofList q ++ " " ++ type)) (field :: fields) =
            (e.field field viaPointer).taking (fields.map fun field => (field, false))) := by
  constructor
  · intro owner passed types type hleads hne
    have hrest (fields : List String) := d.takeFields_append e viaPointer (some owner) passed fields
    rw [hleads.linkAfter_eq hd hne, hleads.recordAfter_eq hd] at hrest
    refine ⟨fun field rest => ?_, hrest⟩
    rw [hrest, takeFields]
    exact d.exists_takeFields_eq_taking _ _ _ rest
  · intro type layout hlayout htrimmed q hq
    obtain ⟨hbehind, hbehindType⟩ := hlayout.append_qualifier hd htrimmed hq
    obtain ⟨hfront, hfrontType⟩ := hlayout.qualifier_append hd htrimmed hq
    refine ⟨⟨hbehind, fun fields => ?_⟩, hfront, fun field fields => ?_⟩
    · cases fields with
      | nil => rfl
      | cons field fields =>
        simp only [takeFields, Option.bind_some, hbehindType]
    · simp only [takeFields, Option.bind_some, hfrontType, Option.any_none]
      exact d.takeFields_none _ fields

/-- A record with a pointer to another record, both behind typedefs. -/
def linkedRecords : Declarations where
  typedefs := .ofList [("S", "struct s"), ("T", "struct t")]
  structs := .ofList [("s", [TypedName.mk "inner" "T *"]), ("t", [TypedName.mk "val" "int"])]

theorem wellNamed_linkedRecords : linkedRecords.WellNamed := by
  have hword : ∀ name ∈ ["S", "T", "s", "t"], IsName name := by
    simp only [List.forall_mem_cons, List.not_mem_nil, false_imp_iff, implies_true, and_true]
    refine ⟨?_, ?_, ?_, ?_⟩ <;>
      exact .of_word (by decide) (Text.forall_mem (by decide)) (by decide)
  have htypedefs : linkedRecords.typedefs.keys = ["S", "T"] := by decide +kernel
  have hstructs : linkedRecords.structs.keys = ["s", "t"] := by decide +kernel
  constructor
  · intro name hname
    rw [← Std.ExtTreeMap.mem_keys, htypedefs] at hname
    exact hword name (List.mem_append_left ["s", "t"] hname)
  · intro name hname
    rw [← Std.ExtTreeMap.mem_keys, hstructs] at hname
    exact hword name (List.mem_append_right ["S", "T"] hname)

theorem leads_linkedRecords {owner : String} (howner : String.ofList (baseName owner) = "S") :
    linkedRecords.Leads owner ["inner"] [owner] "T *" := by
  refine .cons ⟨[⟨"inner", "T *"⟩], ⟨"struct s", ⟨?_, ?_⟩, ?_⟩, ?_⟩ (.nil "T *")
  · rw [howner]
    exact .single ⟨"struct s", by decide +kernel, by decide +kernel⟩
  · decide +kernel
  · decide +kernel
  · decide +kernel

/-- A field behind a pointer that is taken through a pointer to a typedef. -/
theorem takeFields_linkedRecords :
    linkedRecords.WellNamed ∧ linkedRecords.Leads "S *" ["inner"] ["S *"] "T *" ∧
      ["inner"] ≠ [] ∧
      linkedRecords.takeFields (.ident "p") true (some "S *") ["inner", "val"] =
        .field (.field (.ident "p") "inner" true) "val" true := by
  have hleads : linkedRecords.Leads "S *" ["inner"] ["S *"] "T *" :=
    leads_linkedRecords (by decide +kernel)
  refine ⟨wellNamed_linkedRecords, hleads, by decide, ?_⟩
  have hchain := ((linkedRecords.takeFields_of_leads wellNamed_linkedRecords (.ident "p") true).1
    "S *" ["inner"] ["S *"] "T *" hleads (by decide)).2 ["val"]
  have hplain :
      (["S *"].all linkedRecords.isPlain && linkedRecords.isPointerType "T *") = true := by
    decide +kernel
  rw [hplain] at hchain
  exact hchain

/-- With a qualifier in front of the type of its owner, the same field is taken by a dot behind a
field that is declared as a pointer, and so it is in a value with a definition of that type. -/
theorem not_links_qualifiedOwner :
    linkedRecords.WellNamed ∧ linkedRecords.Leads "const S *" ["inner"] ["const S *"] "T *" ∧
      linkedRecords.isPointerType "T *" = true ∧
      linkedRecords.takeFields (.ident "p") true (some "const S *") ["inner", "val"] =
        .field (.field (.ident "p") "inner" true) "val" false ∧
      (linkedRecords.bindText Value.defaultLimit "SymRegion\x7breg_$0<const S *,p>\x7d.inner.val"
        {}).1.map (·.expr) = .ok (.field (.field (.ident "p") "inner" true) "val" false) :=
  ⟨wellNamed_linkedRecords, leads_linkedRecords (by decide +kernel), by decide +kernel,
    by decide +kernel, by decide +kernel⟩

end Declarations

end TestSynth
