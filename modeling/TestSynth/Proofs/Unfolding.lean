import TestSynth.Case.Substitution
import TestSynth.Proofs.Acyclic

/-!
# Unfolding of references

An expression ends in one name, its leaf, so what is substituted for a symbol is a walk: from the
expression of the symbol to that of the symbol its leaf points to, and so on, to a leaf that points
nowhere.  The walk has no measure but the number of steps that are allowed.  If it comes to an end,
the symbols on it are distinct, and as many steps as there are symbols are more than it takes.

* `Expr.trace` : the walk for any rule that says what a name is replaced by, with the steps that are
  left at each turn; `Expr.expand_eq` : expansion is such a walk.
* `Expr.Unfolds` : walks that come to an end, without any bound.
* `Expr.Unfolds.lt_size` : from a symbol, they are shorter than there are symbols.
* `Tables.substituted_unfolds` : if references do not go in circles, every symbol is unfolded to the
  end.
-/

namespace TestSynth

namespace Expr

/-! ### Leaves -/

/-- The name that an expression ends in. -/
def leaf : Expr → String
  | ident name => name
  | index base _ => base.leaf
  | field base _ _ => base.leaf
  | cast _ inner => inner.leaf

/-- The expression with another one in the place of its leaf. -/
def graft : Expr → Expr → Expr
  | ident _, e => e
  | index base i, e => index (base.graft e) i
  | field base name viaPointer, e => field (base.graft e) name viaPointer
  | cast type inner, e => cast type (inner.graft e)

theorem leaf_graft (path e : Expr) : (path.graft e).leaf = e.leaf := by
  induction path with
  | ident name => rfl
  | index base i ih => exact ih
  | field base name viaPointer ih => exact ih
  | cast type inner ih => exact ih

theorem graft_leaf (path : Expr) : path.graft (ident path.leaf) = path := by
  induction path with
  | ident name => rfl
  | index base i ih => rw [leaf, graft, ih]
  | field base name viaPointer ih => rw [leaf, graft, ih]
  | cast type inner ih => rw [leaf, graft, ih]

theorem graft_graft (path inner e : Expr) :
    (path.graft inner).graft e = path.graft (inner.graft e) := by
  induction path with
  | ident name => rfl
  | index base i ih => rw [graft, graft, ih, graft]
  | field base name viaPointer ih => rw [graft, graft, ih, graft]
  | cast type inner ih => rw [graft, graft, ih, graft]

theorem graft_inj {path e e' : Expr} (h : path.graft e = path.graft e') : e = e' := by
  induction path with
  | ident name => exact h
  | index base i ih => exact ih (index.inj h).1
  | field base name viaPointer ih => exact ih (field.inj h).1
  | cast type inner ih => exact ih (cast.inj h).2

theorem mapNames_eq (f : String → Option Expr) (e : Expr) :
    e.mapNames f = (f e.leaf).elim e e.graft := by
  induction e with
  | ident name => rw [mapNames, leaf]; cases f name <;> rfl
  | index base i ih => rw [mapNames, ih, leaf]; cases f base.leaf <;> rfl
  | field base name viaPointer ih => rw [mapNames, ih, leaf]; cases f base.leaf <;> rfl
  | cast type inner ih => rw [mapNames, ih, leaf]; cases f inner.leaf <;> rfl

/-! ### Walks -/

/-- The expression with its leaf replaced by what `next?` says, again and again, for as many steps
as allowed.  It comes with the steps that were left at each turn, the first one included. -/
def trace (next? : String → Option Expr) : (steps : Nat) → Expr → Expr × List Nat
  | 0, e => (e, [0])
  | steps + 1, e =>
    match next? e.leaf with
    | none => (e, [steps + 1])
    | some bound =>
      let (inner, turns) := trace next? steps bound
      (e.graft inner, (steps + 1) :: turns)

/-- The expression of the symbol that a name points to. A symbol that is bound to the very name is
not pointed to. -/
def pointee? (exprs : Table Expr) (name : String) : Option Expr :=
  exprs[referentOf name]?.filter fun bound => bound.name? != some name

/-- **Expansion is a walk** along the symbols that names point to. -/
theorem expand_eq (exprs : Table Expr) (steps : Nat) (e : Expr) :
    e.expand exprs steps = (trace (pointee? exprs) steps e).1 := by
  induction steps generalizing e with
  | zero => rfl
  | succ steps ih =>
    rw [expand, mapNames_eq, trace, pointee?]
    cases exprs[referentOf e.leaf]? with
    | none => rfl
    | some bound =>
      by_cases hself : bound.name? = some e.leaf
      · simp [Option.filter, hself]
      · simp [Option.filter, hself, ih]

/-- The walk from an expression comes to an end after some steps, at a leaf that is not replaced. -/
inductive Unfolds (next? : String → Option Expr) : (length : Nat) → Expr → Expr → Prop
  | stays {e : Expr} (h : next? e.leaf = none) : Unfolds next? 0 e e
  | follows {e bound full : Expr} {length : Nat} (h : next? e.leaf = some bound)
      (hbound : Unfolds next? length bound full) : Unfolds next? (length + 1) e (e.graft full)

namespace Unfolds

variable {next? : String → Option Expr} {length length' steps : Nat} {e full full' : Expr}

theorem unique (h : Unfolds next? length e full) (h' : Unfolds next? length' e full') :
    length = length' ∧ full = full' := by
  induction h generalizing length' full' with
  | stays h =>
    cases h' with
    | stays _ => exact ⟨rfl, rfl⟩
    | follows h' _ => rw [h] at h'; cases h'
  | follows h _ ih =>
    cases h' with
    | stays h' => rw [h] at h'; cases h'
    | follows h' hbound =>
      rw [h] at h'
      cases h'
      obtain ⟨rfl, rfl⟩ := ih hbound
      exact ⟨rfl, rfl⟩

theorem next?_leaf (h : Unfolds next? length e full) : next? full.leaf = none := by
  induction h with
  | stays h => exact h
  | follows _ _ ih => rwa [leaf_graft]

/-- Enough steps lead to the end, and some are left there. -/
theorem trace_eq (h : Unfolds next? length e full) (hsteps : length < steps) :
    (trace next? steps e).1 = full ∧ 0 ∉ (trace next? steps e).2 := by
  induction h generalizing steps with
  | stays h =>
    obtain ⟨steps, rfl⟩ := Nat.exists_eq_add_of_lt hsteps
    simp [trace, h]
  | @follows e bound full length h _ ih =>
    obtain ⟨steps, rfl⟩ := Nat.exists_eq_add_of_lt hsteps
    have hinner := @ih (length + 1 + steps) (by omega)
    simp [trace, h, hinner]

theorem exists_of_le {exprs : Table Expr}
    (hnext : ∀ name bound, next? name = some bound → ∃ s : String, exprs[s]? = some bound)
    {s : String} (hs : exprs[s]? = some e) (h : Unfolds next? length e full) {l : Nat}
    (hl : l ≤ length) :
    ∃ (s : String) (e full : Expr), exprs[s]? = some e ∧ Unfolds next? l e full := by
  induction h generalizing s with
  | stays h =>
    obtain rfl := Nat.le_zero.1 hl
    exact ⟨s, _, _, hs, .stays h⟩
  | @follows e bound full length h hbound ih =>
    rcases Nat.lt_or_eq_of_le hl with hlt | rfl
    · obtain ⟨s, hs⟩ := hnext _ _ h
      exact ih hs (by omega)
    · exact ⟨s, _, _, hs, .follows h hbound⟩

/-- **A walk that comes to an end is shorter than there are symbols**: the symbols on it are
distinct, since the walks from them have different lengths. -/
theorem lt_size {exprs : Table Expr}
    (hnext : ∀ name bound, next? name = some bound → ∃ s : String, exprs[s]? = some bound)
    {s : String} (hs : exprs[s]? = some e) (h : Unfolds next? length e full) :
    length < exprs.size := by
  have hon (l : Nat) (hl : l < length + 1) := exists_of_le hnext hs h (Nat.le_of_lt_succ hl)
  choose! symbol tree path htree hpath using hon
  have hnodup : ((List.range (length + 1)).map symbol).Nodup := by
    refine List.Nodup.map_on (fun l hl l' hl' heq => ?_) List.nodup_range
    rw [List.mem_range] at hl hl'
    have hsame := htree l hl
    rw [heq, htree l' hl'] at hsame
    have hpath' := hpath l hl
    rw [← Option.some.inj hsame] at hpath'
    exact (hpath'.unique (hpath l' hl')).1
  have hsubset : (List.range (length + 1)).map symbol ⊆ exprs.keys := by
    intro s hs
    obtain ⟨l, hl, rfl⟩ := List.mem_map.1 hs
    exact Std.ExtTreeMap.mem_keys.2 (Table.mem_of_getElem? (htree l (List.mem_range.1 hl)))
  have hle := (hnodup.subperm hsubset).length_le
  rw [List.length_map, List.length_range, Std.ExtTreeMap.length_keys] at hle
  exact hle

theorem lt_budget {t : Tables}
    (hnext : ∀ name bound, next? name = some bound → ∃ s : String, t.exprs[s]? = some bound)
    {s : String} (hs : t.exprs[s]? = some e) (h : Unfolds next? length e full) :
    length < t.budget := h.lt_size hnext hs

end Unfolds

/-! ### References between symbols -/

section References

variable {exprs : Table Expr} {name : String} {bound e : Expr}

theorem name?_eq_some_iff : e.name? = some name ↔ e = ident name := by
  cases e <;> simp [name?]

theorem pointee?_eq_some_iff :
    pointee? exprs name = some bound ↔
      exprs[referentOf name]? = some bound ∧ bound.name? ≠ some name := by
  simp [pointee?, Option.filter_eq_some_iff]

theorem pointee?_eq_none_iff :
    pointee? exprs name = none ↔
      ∀ bound, exprs[referentOf name]? = some bound → bound = ident name := by
  simp [pointee?, Option.filter_eq_none_iff, name?_eq_some_iff]

theorem exists_of_pointee? (h : pointee? exprs name = some bound) :
    ∃ s : String, exprs[s]? = some bound :=
  ⟨_, (pointee?_eq_some_iff.1 h).1⟩

theorem expand_of_pointee? (h : pointee? exprs e.leaf = none) (steps : Nat) :
    e.expand exprs steps = e := by
  rw [expand_eq]
  cases steps with
  | zero => rfl
  | succ steps => simp [trace, h]

/-- The leaf of the expression of `s` points to the symbol `s'`, which is not bound to that very
leaf. -/
def PointsTo (exprs : Table Expr) (s s' : String) : Prop :=
  ∃ e bound, exprs[s]? = some e ∧ referentOf e.leaf = s' ∧ exprs[s']? = some bound ∧
    bound ≠ ident e.leaf

theorem PointsTo.of_pointee? {s : String} (hs : exprs[s]? = some e)
    (h : pointee? exprs e.leaf = some bound) : PointsTo exprs s (referentOf e.leaf) := by
  obtain ⟨hbound, hname⟩ := pointee?_eq_some_iff.1 h
  exact ⟨e, bound, hs, rfl, hbound, mt name?_eq_some_iff.2 hname⟩

theorem acyclic_pointsTo (rank : String → Nat) (h : ∀ entry ∈ exprs.toList,
      (pointee? exprs entry.2.leaf).isSome = true →
        rank (referentOf entry.2.leaf) < rank entry.1) : Acyclic (PointsTo exprs) := by
  refine .of_rank rank ?_
  rintro s _ ⟨e, bound, hs, rfl, hbound, hself⟩
  refine h (s, e) (Std.ExtTreeMap.mem_toList_iff_getElem?_eq_some.2 hs) ?_
  rw [pointee?_eq_some_iff.2 ⟨hbound, mt name?_eq_some_iff.1 hself⟩]
  rfl

/-- If references do not go in circles, every walk from a symbol comes to an end. -/
theorem exists_unfolds (h : Acyclic (PointsTo exprs)) {s : String} (hs : exprs[s]? = some e) :
    ∃ length full, Unfolds (pointee? exprs) length e full := by
  obtain ⟨rank, hrank⟩ := h.exists_rank exprs.keys fun s _ ⟨e, _, hs, _⟩ =>
    Std.ExtTreeMap.mem_keys.2 (Table.mem_of_getElem? hs)
  induction hn : rank s using Nat.strongRecOn generalizing s e with
  | ind n ih =>
    cases hpointee : pointee? exprs e.leaf with
    | none => exact ⟨0, e, .stays hpointee⟩
    | some bound =>
      have hlt := hrank _ _ (.of_pointee? hs hpointee)
      obtain ⟨length, full, hfull⟩ :=
        ih _ (hn ▸ hlt) (pointee?_eq_some_iff.1 hpointee).1 rfl
      exact ⟨length + 1, e.graft full, .follows hpointee hfull⟩

end References

end Expr

/-! ### Substitution -/

namespace Tables

open TestSynth.Expr

variable {t : Tables} {s : String} {e : Expr}

theorem getElem?_substituted (hs : t.exprs[s]? = some e) :
    t.substituted[s]? = some (e.expand t.exprs t.budget) := by
  rw [substituted, Std.ExtTreeMap.getElem?_map, hs, Option.map_some]

/-- A name that points nowhere points nowhere after the substitution: a symbol that it names is
bound to the very name, before and after. -/
theorem pointee?_substituted {name : String} (h : pointee? t.exprs name = none) :
    pointee? t.substituted name = none := by
  refine pointee?_eq_none_iff.2 fun bound hbound => ?_
  obtain ⟨old, hold⟩ : ∃ old, t.exprs[referentOf name]? = some old := by
    rw [substituted, Std.ExtTreeMap.getElem?_map] at hbound
    exact (Option.map_eq_some_iff.1 hbound).imp fun _ h => h.1
  obtain rfl := pointee?_eq_none_iff.1 h old hold
  rw [getElem?_substituted hold, expand_of_pointee? (e := ident name) h] at hbound
  exact (Option.some.inj hbound).symm

/-- **Substitution unfolds every symbol to the end**, if references do not go in circles: the result
of a symbol is what the walk from its expression comes to.  The budget is never used up at any turn
of it, nor is a greater one, which leads to the same.  Its leaf points to no symbol, and
substituting once more changes nothing, neither with the expressions as they were nor with those
that came out.  On all tables, circles or not, exactly the symbols that have an expression
get one. -/
theorem substituted_unfolds (t : Tables) :
    (∀ s, s ∈ t.substituted ↔ s ∈ t.exprs) ∧
    (Acyclic (PointsTo t.exprs) →
      (∀ (s : String) (e : Expr), t.exprs[s]? = some e → ∃ length full,
        Unfolds (pointee? t.exprs) length e full ∧ t.substituted[s]? = some full ∧
        (∀ bound, t.exprs[referentOf full.leaf]? = some bound → bound = ident full.leaf) ∧
        0 ∉ (trace (pointee? t.exprs) t.budget e).2 ∧
        (∀ steps, t.budget ≤ steps → e.expand t.exprs steps = full ∧
          0 ∉ (trace (pointee? t.exprs) steps e).2) ∧
        ∀ steps, full.expand t.exprs steps = full) ∧
      { t with exprs := t.substituted }.substituted = t.substituted) := by
  refine ⟨fun s => by rw [substituted, Std.ExtTreeMap.mem_map], fun hacyclic => ?_⟩
  -- no walk from a symbol is as long as the budget
  have hunfolds (s : String) (e : Expr) (hs : t.exprs[s]? = some e) :
      ∃ length full, Unfolds (pointee? t.exprs) length e full ∧
        ∀ steps, t.budget ≤ steps → e.expand t.exprs steps = full ∧
          0 ∉ (trace (pointee? t.exprs) steps e).2 := by
    obtain ⟨length, full, hfull⟩ := exists_unfolds hacyclic hs
    refine ⟨length, full, hfull, fun steps hsteps => ?_⟩
    rw [expand_eq]
    exact hfull.trace_eq
      (Nat.lt_of_lt_of_le (hfull.lt_budget (fun _ _ => exists_of_pointee?) hs) hsteps)
  refine ⟨fun s e hs => ?_, Std.ExtTreeMap.ext_getElem? fun s => ?_⟩
  · obtain ⟨length, full, hfull, hexpand⟩ := hunfolds s e hs
    refine ⟨length, full, hfull, ?_, pointee?_eq_none_iff.1 hfull.next?_leaf,
      (hexpand _ (Nat.le_refl _)).2, hexpand, expand_of_pointee? hfull.next?_leaf⟩
    rw [getElem?_substituted hs, (hexpand _ (Nat.le_refl _)).1]
  · cases hs : t.exprs[s]? with
    | none =>
      rw [substituted, substituted, Std.ExtTreeMap.getElem?_map, Std.ExtTreeMap.getElem?_map, hs]
      rfl
    | some e =>
      obtain ⟨length, full, hfull, hexpand⟩ := hunfolds s e hs
      have hsubstituted : t.substituted[s]? = some full := by
        rw [getElem?_substituted hs, (hexpand _ (Nat.le_refl _)).1]
      rw [getElem?_substituted (t := { t with exprs := t.substituted }) hsubstituted, hsubstituted,
        expand_of_pointee? (pointee?_substituted hfull.next?_leaf)]

/-- Symbols that refer to each other in a chain, one of them with a payload and one to itself. -/
def chainedTables : Tables where
  exprs := .ofList [("reg_$0", Expr.ident "p"), ("reg_$1", Expr.index (.ident "reg_$0") 1),
    ("conj_$2", Expr.ident "conj_$2\x7bint, LC1\x7d"),
    ("reg_$3", Expr.field (.index (.ident "conj_$2\x7bint\x7d") 4) "next" true),
    ("reg_$4", Expr.cast "char *" (.ident "reg_$3")), ("reg_$5", Expr.ident "reg_$1")]

/-- How long the chain from a symbol is at most. -/
def chainedRank (s : String) : Nat :=
  if s = "reg_$4" ∨ s = "reg_$5" then 2 else if s = "reg_$1" ∨ s = "reg_$3" then 1 else 0

theorem substituted_chainedTables :
    Acyclic (PointsTo chainedTables.exprs) ∧
    (∃ length full, Unfolds (pointee? chainedTables.exprs) length (.cast "char *" (.ident "reg_$3"))
        full ∧ chainedTables.substituted["reg_$4"]? = some full ∧
      full.render = "(char *) conj_$2\x7bint, LC1\x7d[4]->next" ∧
      chainedTables.budget = 6 ∧
      0 ∉ (trace (pointee? chainedTables.exprs) 6 (.cast "char *" (.ident "reg_$3"))).2) ∧
    { chainedTables with exprs := chainedTables.substituted }.substituted =
      chainedTables.substituted := by
  have hacyclic : Acyclic (PointsTo chainedTables.exprs) :=
    acyclic_pointsTo chainedRank (by decide +kernel)
  obtain ⟨hall, htwice⟩ := (substituted_unfolds chainedTables).2 hacyclic
  obtain ⟨length, full, hfull, hsubstituted, -, hbudget, -⟩ :=
    hall "reg_$4" (.cast "char *" (.ident "reg_$3")) (by decide +kernel)
  have hrender : chainedTables.substituted["reg_$4"]?.map Expr.render =
      some "(char *) conj_$2\x7bint, LC1\x7d[4]->next" := by decide +kernel
  have hsix : chainedTables.budget = 6 := by decide +kernel
  rw [hsubstituted] at hrender
  rw [hsix] at hbudget
  exact ⟨hacyclic, ⟨length, full, hfull, hsubstituted, Option.some.inj hrender, hsix, hbudget⟩,
    htwice⟩

end Tables

end TestSynth
