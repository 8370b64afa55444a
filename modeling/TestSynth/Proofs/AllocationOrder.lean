import TestSynth.Proofs.Coverage
import TestSynth.Proofs.RegistrationOrder

/-!
# The order of allocations

The places that need buffers are allocated once each, in the order in which the symbols that demand
them are registered.  So a place is allocated before those that hang off it if the symbols of these
build on a symbol of the place; nothing is sorted by what the expressions look like.

* `Allocation.targets_statements` : the outermost targets are the places in demand.
* `Allocation.pairwise_demands` : demands come in the order of registration.
* `Allocation.statements_order` : no target is allocated twice, and which of two comes first.
-/

namespace TestSynth

/-- What a statement assigns to. -/
def Statement.target? : Statement → Option String
  | assign target _ => some target
  | _ => none

namespace Allocation

variable {d : Declarations} {o : Options} {t : Tables} {exprs : Table Expr}

/-! ### Targets -/

/-- The targets of some statements, those inside loops apart. -/
def targets (stmts : List Statement) : List String := stmts.filterMap Statement.target?

theorem targets_append (stmts stmts' : List Statement) :
    targets (stmts ++ stmts') = targets stmts ++ targets stmts' := List.filterMap_append

/-- To meet a demand, its place is allocated once outside of loops. -/
theorem targets_steps {demand : Demand} {steps : List Step} (h : demand.steps t = .ok steps) :
    targets (Step.statements o demand.place steps) = [demand.place] := by
  have hplace : elementText o demand.place [] = demand.place := by
    rw [elementText, List.map_nil, String.join_nil, String.append_empty]
  obtain ⟨element, rest, -, rfl, ⟨-, rfl⟩ | ⟨below, inner, -, -, rfl⟩⟩ := fill_ok h
  · simp [Step.statements, Step.statement, targets, Statement.target?, hplace]
  · simp [Step.statements, Step.statement, targets, Statement.target?, hplace]

/-- **The places in demand are allocated**, one after the other. -/
theorem targets_statements {stmts : List Statement} (h : statements d o t exprs = .ok stmts) :
    targets stmts = (demands d t exprs).map Demand.place := by
  obtain ⟨parts, hparts, heq⟩ := bind_ok h
  cases heq
  clear h
  generalize demands d t exprs = ds at hparts
  induction ds generalizing parts with
  | nil =>
    cases hparts
    rfl
  | cons demand ds ih =>
    rw [List.mapM_cons] at hparts
    obtain ⟨part, hpart, hparts⟩ := bind_ok hparts
    obtain ⟨parts, hrest, heq⟩ := bind_ok hparts
    cases heq
    obtain ⟨steps, hsteps, heq⟩ := bind_ok hpart
    cases heq
    rw [List.flatten_cons, targets_append, targets_steps hsteps, ih parts hrest]
    rfl

/-! ### Demands -/

theorem distinct_sublist (ds : List Demand) : (distinct ds).Sublist ds := by
  induction ds with
  | nil => exact .slnil
  | cons demand ds ih => exact (List.filter_sublist.trans ih).cons_cons demand

theorem nodup_places (ds : List Demand) : ((distinct ds).map Demand.place).Nodup := by
  induction ds with
  | nil => exact .nil
  | cons demand ds ih =>
    rw [distinct, List.map_cons, List.nodup_cons]
    refine ⟨fun hmem => ?_, ih.sublist (List.filter_sublist.map _)⟩
    obtain ⟨other, hother, heq⟩ := List.mem_map.1 hmem
    have hne := (List.mem_filter.1 hother).2
    rw [heq, bne_self_eq_false] at hne
    cases hne

theorem symbol_of_demand? {s : String} {demand : Demand} (h : demand? d t exprs s = some demand) :
    demand.symbol = s := by
  obtain ⟨_, _, _, -, -, -, -, rfl⟩ := demand?_eq_some_iff.1 h
  rfl

theorem demand?_of_mem {demand : Demand} (h : demand ∈ demands d t exprs) :
    demand.symbol ∈ t.order ∧ demand? d t exprs demand.symbol = some demand := by
  obtain ⟨s, hs, hdemand⟩ := List.mem_filterMap.1 ((distinct_sublist _).subset h)
  rw [symbol_of_demand? hdemand]
  exact ⟨hs, hdemand⟩

theorem pairwise_filterMap (h : t.Owned) : (t.order.filterMap (demand? d t exprs)).Pairwise
    fun a b => t.order.idxOf a.symbol < t.order.idxOf b.symbol := by
  have horder : t.order.Pairwise fun s s' => t.order.idxOf s < t.order.idxOf s' := by
    rw [List.pairwise_iff_getElem]
    intro i j hi hj hlt
    rwa [h.nodup.idxOf_getElem, h.nodup.idxOf_getElem]
  refine List.Pairwise.filterMap _ (fun s s' hlt a ha b hb => ?_) horder
  rwa [symbol_of_demand? ha, symbol_of_demand? hb]

/-- **Demands are met in the order of registration.** -/
theorem pairwise_demands (h : t.Owned) :
    (demands d t exprs).Pairwise fun a b => t.order.idxOf a.symbol < t.order.idxOf b.symbol :=
  (pairwise_filterMap h).sublist (distinct_sublist _)

theorem idxOf_le_of_place (howned : t.Owned) {a b : Demand} {s : String}
    (ha : a ∈ demands d t exprs) (hs : s ∈ t.order) (hb : demand? d t exprs s = some b)
    (hplace : b.place = a.place) : t.order.idxOf a.symbol ≤ t.order.idxOf s := by
  obtain ⟨-, before, after, heq, hnone⟩ := List.find?_eq_some_iff_append.1 (mem_demands.1 ha)
  have hsorted := @pairwise_filterMap d t exprs howned
  have hmem : b ∈ t.order.filterMap (demand? d t exprs) := List.mem_filterMap.2 ⟨s, hs, hb⟩
  rw [heq] at hsorted hmem
  rw [← symbol_of_demand? hb]
  rcases List.mem_append.1 hmem with hbefore | hmem
  · exact absurd (hnone b hbefore) (by simp [hplace])
  · rcases List.mem_cons.1 hmem with rfl | hafter
    · exact Nat.le_refl _
    · exact Nat.le_of_lt
        ((List.pairwise_cons.1 (List.pairwise_append.1 hsorted).2.1).1 b hafter)

/-! ### Places in a list -/

/-- In a list that is sorted by rank, what comes first has the smaller rank, also under names that
are not repeated. -/
theorem idxOf_map_lt_iff {α : Type} {rank : α → Nat} {name : α → String} {as : List α}
    (hsorted : as.Pairwise fun a b => rank a < rank b) (hnames : (as.map name).Nodup) {a b : α}
    (ha : a ∈ as) (hb : b ∈ as) :
    (as.map name).idxOf (name a) < (as.map name).idxOf (name b) ↔ rank a < rank b := by
  have hidx (i : Nat) (hi : i < as.length) : (as.map name).idxOf (name as[i]) = i := by
    have := hnames.idxOf_getElem i (by rwa [List.length_map])
    rwa [List.getElem_map] at this
  obtain ⟨i, hi, rfl⟩ := List.getElem_of_mem ha
  obtain ⟨j, hj, rfl⟩ := List.getElem_of_mem hb
  rw [hidx i hi, hidx j hj]
  rw [List.pairwise_iff_getElem] at hsorted
  refine ⟨fun hlt => hsorted i j hi hj hlt, fun hlt => ?_⟩
  rcases Nat.lt_trichotomy i j with hij | rfl | hji
  · exact hij
  · exact absurd hlt (Nat.lt_irrefl _)
  · exact absurd hlt (Nat.lt_asymm (hsorted j i hj hi hji))

/-! ### The order -/

/-- **What is allocated, and in which order.**  No two targets are the same.  Of two targets the
one comes first whose symbol is registered first; in particular, the target of `a` comes before that
of `b` if the symbol of `b` builds on one that is written like `a`. -/
theorem statements_order {c : Case} {stmts : List Statement}
    (hresolved : d.resolveParameters (c.intake d) = (.ok (), t))
    (hstmts : statements d o t t.substituted = .ok stmts) :
    targets stmts = (demands d t t.substituted).map Demand.place ∧ (targets stmts).Nodup ∧
    ∀ a ∈ demands d t t.substituted, ∀ b ∈ demands d t t.substituted,
      ((targets stmts).idxOf a.place < (targets stmts).idxOf b.place ↔
        t.order.idxOf a.symbol < t.order.idxOf b.symbol) ∧
      ∀ (r : String) (a' : Demand),
        Relation.TransGen (BuildsOn Value.defaultLimit (c.intake d)) b.symbol r →
          demand? d t t.substituted r = some a' → a'.place = a.place →
            (targets stmts).idxOf a.place < (targets stmts).idxOf b.place := by
  have howned : t.Owned := .of_resolveParameters hresolved
  rw [targets_statements hstmts]
  refine ⟨rfl, nodup_places _, fun a ha b hb => ?_⟩
  have hiff := idxOf_map_lt_iff (pairwise_demands howned) (nodup_places _) ha hb
  refine ⟨hiff, fun r a' hbuilds hr hplace => hiff.2 ?_⟩
  have hlt := Declarations.idxOf_lt_of_buildsOn hresolved (demand?_of_mem hb).1 hbuilds
  have hrmem : r ∈ t.order := List.idxOf_lt_length_iff.1
    (Nat.lt_trans hlt (List.idxOf_lt_length_iff.2 (demand?_of_mem hb).1))
  exact Nat.lt_of_le_of_lt (idxOf_le_of_place howned ha hrmem hr hplace) hlt

/-- A function whose argument is a record with a record in it. -/
def nestedRecords : Declarations where
  functions := .ofList [("foo", [TypedName.mk "p" "struct s *"])]
  structs := .ofList [("s", [TypedName.mk "inner" "struct t *"]),
    ("t", [TypedName.mk "buf" "char *"])]

/-- What a case leaves behind. -/
abbrev resolved (c : Case) : Tables := (nestedRecords.resolveParameters (c.intake nestedRecords)).2

theorem exists_ok_of_toBool {ε α : Type} {x : Except ε α} (h : x.toBool = true) :
    ∃ a, x = .ok a := by
  cases x with
  | error e => cases h
  | ok a => exact ⟨a, rfl⟩

/-- The inner record, and a buffer of it that refers to the inner record. -/
def bufferOfRecord : Case where
  parameters := .ofList [("reg_$1", "SymRegion\x7breg_$0<struct s *,p>\x7d.inner"),
    ("reg_$2", "SymRegion\x7breg_$1\x7d.buf")]
  types := .ofList [("reg_$1", "struct t *"), ("reg_$2", "char *")]

theorem buildsOn_bufferOfRecord :
    Relation.TransGen (BuildsOn Value.defaultLimit (bufferOfRecord.intake nestedRecords))
      "reg_$2" "reg_$0" := by
  let t := bufferOfRecord.intake nestedRecords
  obtain ⟨hbuffer, hrecord, hdefined, hin⟩ :
      (∀ p ∈ t.readable, p.1 = "reg_$2" → p.2.referent? = some "reg_$1") ∧
      (∀ p ∈ t.readable, p.1 = "reg_$1" →
        p.2.referent? = none ∧ ∃ x ∈ p.2.definitions, x.name = "reg_$0") ∧
      (∀ x ∈ t.definitions, x.name ≠ "reg_$1" ∧ x.name ≠ "reg_$2") ∧ "reg_$1" ∈ t.parameters := by
    decide +kernel
  have hcircle : ¬Relation.TransGen (Refers Value.defaultLimit t) "reg_$1" "reg_$1" := by
    rw [Relation.TransGen.head'_iff]
    rintro ⟨s, ⟨text, v, htext, hparse, hreferent⟩, -⟩
    have hnone := (hrecord ("reg_$1", v) (Tables.mem_readable.2 ⟨text, htext, hparse⟩) rfl).1
    rw [hreferent] at hnone
    cases hnone
  refine .head (b := "reg_$1") (fun v hv => ?_) (.single fun v hv => ?_)
  · rcases valueOf_iff.1 hv with hv | ⟨x, hx, hname, -⟩
    · exact .inr ⟨hbuffer _ hv rfl, hin, hcircle⟩
    · exact absurd hname (hdefined x hx).2
  · rcases valueOf_iff.1 hv with hv | ⟨x, hx, hname, -⟩
    · exact .inl (hrecord _ hv rfl).2
    · exact absurd hname (hdefined x hx).1

theorem statements_order_bufferOfRecord :
    ∃ t stmts a b,
      nestedRecords.resolveParameters (bufferOfRecord.intake nestedRecords) = (.ok (), t) ∧
      statements nestedRecords {} t t.substituted = .ok stmts ∧
      a ∈ demands nestedRecords t t.substituted ∧ a.place = "p" ∧
      b ∈ demands nestedRecords t t.substituted ∧ b.place = "p->inner->buf" ∧
      (targets stmts).Nodup ∧ (targets stmts).idxOf a.place < (targets stmts).idxOf b.place := by
  let t := resolved bufferOfRecord
  let a : Demand := ⟨"reg_$0", "p", "struct s *", "reg_$0"⟩
  let b : Demand := ⟨"reg_$2", "p->inner->buf", "char *", "reg_$2"⟩
  obtain ⟨hfst, hok, hdemand, ha, hb⟩ :
      (nestedRecords.resolveParameters (bufferOfRecord.intake nestedRecords)).1 = .ok () ∧
      (statements nestedRecords {} t t.substituted).toBool = true ∧
      demand? nestedRecords t t.substituted "reg_$0" = some a ∧
      a ∈ demands nestedRecords t t.substituted ∧ b ∈ demands nestedRecords t t.substituted := by
    decide +kernel
  obtain ⟨stmts, hstmts⟩ := exists_ok_of_toBool hok
  have hresolved : nestedRecords.resolveParameters (bufferOfRecord.intake nestedRecords) =
      (.ok (), t) := Prod.ext hfst rfl
  obtain ⟨-, hnodup, horder⟩ := statements_order hresolved hstmts
  exact ⟨t, stmts, a, b, hresolved, hstmts, ha, rfl, hb, rfl, hnodup,
    (horder a ha b hb).2 "reg_$0" a buildsOn_bufferOfRecord hdemand rfl⟩

end Allocation

/-- The expressions that an expression is made of, without itself. -/
def Expr.parts : Expr → List Expr
  | ident _ => []
  | index base _ => base :: base.parts
  | field base _ _ => base :: base.parts
  | cast _ inner => inner :: inner.parts

namespace Allocation

/-- The inner record and a buffer of it, each with a path of its own; the buffer has its turn
first. -/
def bufferBeforeRecord : Case where
  parameters := .ofList [("reg_$1", "SymRegion\x7breg_$0<struct s *,p>\x7d.inner.buf"),
    ("reg_$2", "SymRegion\x7breg_$0<struct s *,p>\x7d.inner")]
  types := .ofList [("reg_$1", "char *"), ("reg_$2", "struct t *")]

/-- The buffer is allocated before the record that it hangs off. -/
theorem not_statements_order_bufferBeforeRecord :
    ¬∀ (d : Declarations) (o : Options) (c : Case) (t : Tables) (stmts : List Statement),
      d.resolveParameters (c.intake d) = (.ok (), t) →
        statements d o t t.substituted = .ok stmts →
          (∀ a ∈ demands d t t.substituted, ∀ b ∈ demands d t t.substituted,
            ∀ e e', t.substituted[a.symbol]? = some e → t.substituted[b.symbol]? = some e' →
              e ∈ e'.parts →
                (targets stmts).idxOf a.place < (targets stmts).idxOf b.place) ∧
          (targets stmts).Nodup := by
  intro hclaim
  let t := resolved bufferBeforeRecord
  let a : Demand := ⟨"reg_$2", "p->inner", "struct t *", "reg_$2"⟩
  let b : Demand := ⟨"reg_$1", "p->inner->buf", "char *", "reg_$1"⟩
  let record : Expr := .field (.ident "p") "inner" true
  obtain ⟨hfst, hok, ha, hb, hrecord, hbuffer, horder⟩ :
      (nestedRecords.resolveParameters (bufferBeforeRecord.intake nestedRecords)).1 = .ok () ∧
      (statements nestedRecords {} t t.substituted).toBool = true ∧
      a ∈ demands nestedRecords t t.substituted ∧ b ∈ demands nestedRecords t t.substituted ∧
      t.substituted["reg_$2"]? = some record ∧
      t.substituted["reg_$1"]? = some (.field record "buf" true) ∧
      ¬((demands nestedRecords t t.substituted).map Demand.place).idxOf "p->inner" <
        ((demands nestedRecords t t.substituted).map Demand.place).idxOf "p->inner->buf" := by
    decide +kernel
  obtain ⟨stmts, hstmts⟩ := exists_ok_of_toBool hok
  have hlt := (hclaim nestedRecords {} bufferBeforeRecord t stmts (Prod.ext hfst rfl) hstmts).1
    a ha b hb record _ hrecord hbuffer List.mem_cons_self
  rw [targets_statements hstmts] at hlt
  exact horder hlt

end Allocation

end TestSynth
