import TestSynth.Declarations.Dump

/-!
# Merged units

Merging keeps, under each name of a table, what the first unit has under this name.  So a query that
looks up one name is answered by the first unit that answers it, and it does not matter how the
units are grouped or whether one of them comes again.

The fields of a record are looked up under two names, as the record is spelled and without its
keyword.  The merged tables are searched for the first name before the second one, while each unit
by itself is asked for both: a later unit that lists the record as it is spelled overtakes an
earlier one that lists it without the keyword.

* `Declarations.IsLookup.ofUnits` : queries that look up one name.
* `Declarations.fields?_ofUnits` : what merged units answer about a record.
* `Declarations.ofUnits_answers` : the first unit that answers is believed, but where it is
  overtaken.
-/

namespace TestSynth

namespace Table

variable {α : Type}

theorem orElse_assoc (a b c : Table α) : (a.orElse b).orElse c = a.orElse (b.orElse c) := by
  refine Std.ExtTreeMap.ext_getElem? fun name => ?_
  simp only [getElem?_orElse, Option.or_assoc]

theorem empty_orElse (t : Table α) : Table.orElse ∅ t = t :=
  Std.ExtTreeMap.ext_getElem? fun name => by
    rw [getElem?_orElse, Std.ExtTreeMap.getElem?_empty, Option.none_or]

theorem orElse_empty (t : Table α) : t.orElse ∅ = t :=
  Std.ExtTreeMap.ext_getElem? fun name => by
    rw [getElem?_orElse, Std.ExtTreeMap.getElem?_empty, Option.or_none]

/-- A table that was laid under others adds nothing when it is laid under them again. -/
theorem orElse_orElse_self (t u v : Table α) :
    (t.orElse (u.orElse v)).orElse u = t.orElse (u.orElse v) := by
  refine Std.ExtTreeMap.ext_getElem? fun name => ?_
  simp only [getElem?_orElse]
  cases t[name]? <;> cases u[name]? <;> cases v[name]? <;> rfl

end Table

namespace Declarations

variable {α : Type} {units : List Declarations} {name : String}

/-! ### Merging -/

/-- **Merging is associative.** -/
theorem merge_assoc (a b c : Declarations) : (a.merge b).merge c = a.merge (b.merge c) := by
  simp only [merge, Table.orElse_assoc]

theorem merge_merge_self (a b c : Declarations) :
    (a.merge (b.merge c)).merge b = a.merge (b.merge c) := by
  simp only [merge, Table.orElse_orElse_self]

theorem empty_merge (d : Declarations) : merge {} d = d := by
  simp only [merge, Table.empty_orElse]

theorem merge_empty (d : Declarations) : d.merge {} = d := by
  simp only [merge, Table.orElse_empty]

theorem foldl_merge (d : Declarations) (units : List Declarations) :
    units.foldl merge d = d.merge (ofUnits units) := by
  induction units generalizing d with
  | nil => exact (merge_empty d).symm
  | cons u units ih =>
    have hcons : ofUnits (u :: units) = u.merge (ofUnits units) := by
      rw [ofUnits, List.foldl_cons, ih, empty_merge]
    rw [List.foldl_cons, ih, hcons, merge_assoc]

theorem ofUnits_cons (u : Declarations) (units : List Declarations) :
    ofUnits (u :: units) = u.merge (ofUnits units) := by
  rw [ofUnits, List.foldl_cons, empty_merge, foldl_merge]

theorem ofUnits_append (units others : List Declarations) :
    ofUnits (units ++ others) = (ofUnits units).merge (ofUnits others) := by
  rw [ofUnits, List.foldl_append, foldl_merge]
  rfl

theorem merge_of_mem {u : Declarations} (h : u ∈ units) :
    (ofUnits units).merge u = ofUnits units := by
  obtain ⟨front, behind, rfl⟩ := List.append_of_mem h
  rw [ofUnits_append, ofUnits_cons, merge_merge_self]

/-! ### Queries -/

/-- The query looks up one name of one table. -/
structure IsLookup (query : Declarations → Option α) : Prop where
  empty : query {} = none
  merge : ∀ d d' : Declarations, query (d.merge d') = (query d).or (query d')

/-- **A query that looks up one name is answered by the first unit that answers it.** -/
theorem IsLookup.ofUnits {query : Declarations → Option α} (h : IsLookup query)
    (units : List Declarations) : query (ofUnits units) = units.findSome? query := by
  induction units with
  | nil => exact h.empty
  | cons u units ih =>
    rw [ofUnits_cons, h.merge, ih, List.findSome?_cons]
    cases query u <;> rfl

theorem isLookup_parameters (name : String) : IsLookup (·.parameters? name) :=
  ⟨Std.ExtTreeMap.getElem?_empty, fun _ _ => Table.getElem?_orElse ..⟩

theorem isLookup_variableType (name : String) : IsLookup (·.variableType? name) :=
  ⟨Std.ExtTreeMap.getElem?_empty, fun _ _ => Table.getElem?_orElse ..⟩

theorem isLookup_typedefTarget (name : String) : IsLookup (·.typedefTarget? name) :=
  ⟨Std.ExtTreeMap.getElem?_empty, fun _ _ => Table.getElem?_orElse ..⟩

theorem isLookup_structs (name : String) : IsLookup (·.structs[name]?) :=
  ⟨Std.ExtTreeMap.getElem?_empty, fun _ _ => Table.getElem?_orElse ..⟩

/-- **The fields of a record** are those of the first unit that lists it as it is spelled, or else
those of the first unit that lists it without its keyword. -/
theorem fields?_ofUnits (units : List Declarations) (name : String) :
    (ofUnits units).fields? name =
      (units.findSome? (·.structs[Text.trimmed name]?)).or
        (units.findSome? (·.structs[recordName name]?)) := by
  rw [fields?, (isLookup_structs _).ofUnits, (isLookup_structs _).ofUnits]

/-- The first unit that knows the fields of a record lists it without its keyword, and a later unit
lists it with other fields as it is spelled. -/
inductive Overtaken (name : String) : List Declarations → Prop
  | here {u : Declarations} {units : List Declarations} {fields others : List TypedName}
    (hspelled : u.structs[Text.trimmed name]? = none)
    (hbare : u.structs[recordName name]? = some fields)
    (hlater : units.findSome? (·.structs[Text.trimmed name]?) = some others)
    (hne : others ≠ fields) : Overtaken name (u :: units)
  | later {u : Declarations} {units : List Declarations} (hnone : u.fields? name = none)
    (h : Overtaken name units) : Overtaken name (u :: units)

theorem fields?_eq_findSome?_iff :
    (ofUnits units).fields? name = units.findSome? (·.fields? name) ↔ ¬Overtaken name units := by
  rw [fields?_ofUnits]
  induction units with
  | nil => exact ⟨nofun, fun _ => rfl⟩
  | cons u units ih =>
    simp only [List.findSome?_cons, fields?]
    cases hspelled : u.structs[Text.trimmed name]? with
    | some fields =>
      refine ⟨?_, fun _ => rfl⟩
      rintro - (⟨hnone, -, -, -⟩ | ⟨hnone, -⟩)
      · rw [hspelled] at hnone
        cases hnone
      · rw [fields?, hspelled] at hnone
        cases hnone
    | none =>
      cases hbare : u.structs[recordName name]? with
      | none =>
        have hnone : u.fields? name = none := by rw [fields?, hspelled, hbare, Option.none_or]
        simp only [Option.none_or]
        refine ih.trans (not_congr ⟨.later hnone, ?_⟩)
        rintro (⟨-, hsome, -, -⟩ | ⟨-, h⟩)
        · rw [hbare] at hsome
          cases hsome
        · exact h
      | some fields =>
        simp only [Option.none_or]
        -- the unit answers for the bare name, unless a later one knows the spelling
        cases hlater : units.findSome? (·.structs[Text.trimmed name]?) with
        | none =>
          refine ⟨?_, fun _ => rfl⟩
          rintro - (⟨-, -, hsome, -⟩ | ⟨hnone, -⟩)
          · rw [hlater] at hsome
            cases hsome
          · rw [fields?, hspelled, hbare] at hnone
            cases hnone
        | some others =>
          simp only [Option.some_or, Option.some.injEq]
          constructor
          · rintro rfl (⟨-, hfields, hothers, hne⟩ | ⟨hnone, -⟩)
            · rw [hbare] at hfields
              rw [hlater] at hothers
              exact hne (Option.some.inj (hothers.symm.trans hfields))
            · rw [fields?, hspelled, hbare] at hnone
              cases hnone
          · exact fun h => Decidable.of_not_not fun hne => h (.here hspelled hbare hlater hne)

theorem not_overtaken_of_bare (hname : recordName name = Text.trimmed name) :
    ¬Overtaken name units := by
  intro h
  induction h with
  | here hspelled hbare _ _ =>
    rw [hname, hspelled] at hbare
    cases hbare
  | later _ _ ih => exact ih

/-! ### Dumps -/

/-- The units of a dump. -/
def unitsOfDump? (source : String) : Option (List Declarations) :=
  (Json.parseStrict source).bind fun j => (Json.list? ofJson? j).or ((ofJson? j).map ([·]))

theorem ofDump_eq (source : String) :
    ofDump source = (unitsOfDump? source).elim (.error .noDeclarations) (.ok <| ofUnits ·) := by
  rw [ofDump, unitsOfDump?]
  split <;> next h => rw [h]; rfl

/-- **Merged units answer as the first unit that answers at all**, and how they are grouped and
whether one of them comes again does not matter.  The only exception are the fields of a record that
is overtaken: they are those of the first unit that lists the record as it is spelled. -/
theorem ofUnits_answers (units : List Declarations) (name : String) :
    (∀ source, unitsOfDump? source = some units → ofDump source = .ok (ofUnits units)) ∧
    (ofUnits units).parameters? name = units.findSome? (·.parameters? name) ∧
    (ofUnits units).variableType? name = units.findSome? (·.variableType? name) ∧
    (ofUnits units).typedefTarget? name = units.findSome? (·.typedefTarget? name) ∧
    (ofUnits units).fields? name =
      (units.findSome? (·.structs[Text.trimmed name]?)).or
        (units.findSome? (·.structs[recordName name]?)) ∧
    ((ofUnits units).fields? name = units.findSome? (·.fields? name) ↔ ¬Overtaken name units) ∧
    (recordName name = Text.trimmed name → ¬Overtaken name units) ∧
    (∀ others, ofUnits (units ++ others) = (ofUnits units).merge (ofUnits others)) ∧
    (∀ a b c : Declarations, (a.merge b).merge c = a.merge (b.merge c)) ∧
    ∀ u ∈ units, ∀ others, ofUnits (units ++ u :: others) = ofUnits (units ++ others) := by
  refine ⟨fun source h => ?_, (isLookup_parameters name).ofUnits units,
    (isLookup_variableType name).ofUnits units, (isLookup_typedefTarget name).ofUnits units,
    fields?_ofUnits units name, fields?_eq_findSome?_iff, not_overtaken_of_bare,
    ofUnits_append units, merge_assoc, fun u hu others => ?_⟩
  · rw [ofDump_eq, h]
    rfl
  · rw [ofUnits_append, ofUnits_append, ofUnits_cons, ← merge_assoc, merge_of_mem hu]

/-- Two units that list the same record, the first one without its keyword. -/
def nodeUnits : List Declarations :=
  [{ structs := .ofList [("node", [TypedName.mk "next" "struct node *"])] },
    { structs := .ofList [("struct node", [TypedName.mk "key" "int"])] }]

theorem ofUnits_answers_nodeUnits :
    recordName "node" = Text.trimmed "node" ∧
      (ofUnits nodeUnits).fields? "node" = some [⟨"next", "struct node *"⟩] ∧
      (ofUnits nodeUnits).fields? "struct node" = some [⟨"key", "int"⟩] ∧
      Overtaken "struct node" nodeUnits := by
  have hname : recordName "node" = Text.trimmed "node" := by decide +kernel
  obtain ⟨-, -, -, -, -, hbare, hnot, -, -, -⟩ := ofUnits_answers nodeUnits "node"
  obtain ⟨-, -, -, -, hspelled, hiff, -, -, -, -⟩ := ofUnits_answers nodeUnits "struct node"
  have hfields : (ofUnits nodeUnits).fields? "struct node" = some [⟨"key", "int"⟩] :=
    hspelled.trans (by decide +kernel)
  refine ⟨hname, (hbare.2 (hnot hname)).trans (by decide +kernel), hfields, ?_⟩
  refine Classical.not_not.1 fun hfirst => absurd (hfields.symm.trans (hiff.2 hfirst)) ?_
  decide +kernel

/-- The later unit answers for the record, though the first one does so too by itself. -/
theorem not_answers_overtaken :
    (ofUnits nodeUnits).fields? "struct node" ≠ nodeUnits.findSome? (·.fields? "struct node") := by
  decide +kernel

end Declarations

end TestSynth
