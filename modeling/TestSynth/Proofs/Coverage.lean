import TestSynth.Case.Substitution
import TestSynth.Code.Allocation
import TestSynth.Proofs.Accesses
import TestSynth.Proofs.Ownership
import Mathlib.Data.List.Nodup

/-!
# Coverage of accesses

A place gets its buffers once: the first symbol that is written as the place is its server, and the
sizes are those of the server's root.  So the elements that were accessed by way of another symbol
of the same text are covered only as far as the server's were, and the greatest index never is.

* `Allocation.mem_allBuffers_fill` : the buffers of a place, one for each level of pointers.
* `Allocation.mem_distinct` : each place is left to the first symbol that demands it.
* `Allocation.covers_iff` : an element is covered if the server has the level and the size.
* `Allocation.covers_accesses_iff` : all accesses of a symbol are covered exactly if the server was
  accessed as far, below the greatest index.
-/

namespace TestSynth.Allocation

/-! ### The buffers of a place -/

mutual

/-- The buffers that a step provides: the number of dereferences that lead to each, and the number
of its elements. -/
def Step.buffers : Step → List (Nat × Nat)
  | allocate indices _ count => [(indices.length, count)]
  | loop _ _ body => Step.allBuffers body

/-- The buffers that some steps provide. -/
def Step.allBuffers : List Step → List (Nat × Nat)
  | [] => []
  | step :: steps => step.buffers ++ Step.allBuffers steps

end

variable {d : Declarations} {o : Options} {t : Tables} {exprs : Table Expr}

/-- Filling a place provides a buffer for each level, as large as is needed. -/
theorem mem_allBuffers_fill {type root : String} {below depth : Nat} {steps : List Step}
    (h : fill t type root below depth = .ok steps) (k count : Nat) :
    (k, count) ∈ Step.allBuffers steps ↔
      (depth ≤ k ∧ k ≤ depth + below) ∧ count = t.neededSize root k := by
  induction below generalizing depth steps with
  | zero =>
    obtain ⟨element, rest, -, rfl, ⟨-, rfl⟩ | ⟨below', inner, hbelow, -, -⟩⟩ := fill_ok h
    · simp only [Step.allBuffers, Step.buffers, List.append_nil, List.mem_singleton,
        Prod.mk.injEq, List.length_range, Nat.add_zero]
      constructor
      · rintro ⟨rfl, rfl⟩
        exact ⟨⟨Nat.le_refl _, Nat.le_refl _⟩, rfl⟩
      · rintro ⟨⟨hle, hge⟩, rfl⟩
        obtain rfl := Nat.le_antisymm hle hge
        exact ⟨rfl, rfl⟩
    · cases hbelow
  | succ below ih =>
    obtain ⟨element, rest, -, rfl, ⟨hbelow, -⟩ | ⟨below', inner, hbelow, hinner, rfl⟩⟩ := fill_ok h
    · cases hbelow
    · cases hbelow
      simp only [Step.allBuffers, Step.buffers, List.append_nil, List.mem_append,
        List.mem_singleton, Prod.mk.injEq, List.length_range, ih hinner]
      constructor
      · rintro (⟨rfl, rfl⟩ | ⟨⟨hle, hge⟩, rfl⟩)
        · exact ⟨⟨Nat.le_refl _, Nat.le_add_right _ _⟩, rfl⟩
        · exact ⟨⟨by omega, by omega⟩, rfl⟩
      · rintro ⟨⟨hle, hge⟩, rfl⟩
        -- the buffer of this level, or one of those inside the loop
        rcases Nat.eq_or_lt_of_le hle with rfl | hlt
        · exact .inl ⟨rfl, rfl⟩
        · exact .inr ⟨⟨hlt, by omega⟩, rfl⟩

/-! ### Who serves a place -/

/-- Of the demands for a place, the first one is met. -/
theorem mem_distinct {demand : Demand} {ds : List Demand} :
    demand ∈ distinct ds ↔ ds.find? (·.place == demand.place) = some demand := by
  induction ds with
  | nil => simp [distinct]
  | cons first ds ih =>
    rw [distinct, List.mem_cons, List.mem_filter, ih, List.find?_cons]
    -- only a demand for the same place can keep the later ones from being met
    by_cases hplace : first.place = demand.place
    · have hself : (demand.place != first.place) = false := by simp [hplace]
      rw [hself]
      simp [hplace, eq_comm]
    · have hne : demand ≠ first := fun h => hplace (h ▸ rfl)
      have hfirst : (first.place == demand.place) = false := by simpa using hplace
      rw [hfirst]
      simp [hne, Ne.symm hplace]

/-- A symbol demands buffers for its place if it has a pointer type, owns its storage, and is
written as no element of another place. -/
theorem demand?_eq_some_iff {symbol : String} {demand : Demand} :
    demand? d t exprs symbol = some demand ↔
      ∃ slot expr declared, t.slots[symbol]? = some slot ∧ exprs[symbol]? = some expr ∧
        t.types[symbol]? = some declared ∧
        (slot.depth = 0 ∧ expr.isIndex = false ∧ isPointer (d.resolveType declared) = true) ∧
        ⟨symbol, expr.render, d.resolveType declared, slot.root⟩ = demand := by
  simp only [demand?, Option.bind_eq_bind, Option.bind_eq_some_iff, Option.ite_none_right_eq_some,
    Bool.and_eq_true, Bool.not_eq_true', decide_eq_true_eq, Option.some.injEq, and_assoc]
  constructor
  · rintro ⟨slot, hslot, expr, hexpr, declared, hdeclared, h⟩
    exact ⟨slot, expr, declared, hslot, hexpr, hdeclared, h⟩
  · rintro ⟨slot, expr, declared, hslot, hexpr, hdeclared, h⟩
    exact ⟨slot, hslot, expr, hexpr, declared, hdeclared, h⟩

/-- The demand that is met for a place: that of the first symbol that is written so. -/
def server? (d : Declarations) (t : Tables) (exprs : Table Expr) (place : String) : Option Demand :=
  (t.order.filterMap (demand? d t exprs)).find? (·.place == place)

theorem mem_demands {demand : Demand} :
    demand ∈ demands d t exprs ↔ server? d t exprs demand.place = some demand :=
  mem_distinct

theorem place_of_server? {place : String} {demand : Demand}
    (h : server? d t exprs place = some demand) : demand.place = place := by
  simpa using List.find?_some h

theorem isPointer_of_server? {place : String} {demand : Demand}
    (h : server? d t exprs place = some demand) : isPointer demand.type = true := by
  obtain ⟨symbol, -, hsymbol⟩ := List.mem_filterMap.1 (List.mem_of_find?_eq_some h)
  obtain ⟨_, _, _, -, -, -, ⟨-, -, hpointer⟩, rfl⟩ := demand?_eq_some_iff.1 hsymbol
  exact hpointer

theorem steps_of_statements {stmts : List Statement} (h : statements d o t exprs = .ok stmts)
    {demand : Demand} (hin : demand ∈ demands d t exprs) : ∃ steps, demand.steps t = .ok steps := by
  obtain ⟨parts, hparts, -⟩ := bind_ok h
  generalize demands d t exprs = ds at hparts hin
  induction ds generalizing parts with
  | nil => cases hin
  | cons first ds ih =>
    rw [List.mapM_cons] at hparts
    obtain ⟨part, hfirst, hparts⟩ := bind_ok hparts
    obtain ⟨parts', hrest, -⟩ := bind_ok hparts
    obtain ⟨steps, hsteps, -⟩ := bind_ok hfirst
    rcases List.mem_cons.1 hin with rfl | hin
    · exact ⟨steps, hsteps⟩
    · exact ih parts' hrest hin

/-! ### What is covered -/

/-- The element `i` of a place, `depth` dereferences away, is in a buffer that the place gets. -/
def Covers (d : Declarations) (t : Tables) (exprs : Table Expr) (place : String) (depth : Nat)
    (i : Int) : Prop :=
  ∃ demand ∈ demands d t exprs, demand.place = place ∧
    ∃ steps, demand.steps t = .ok steps ∧
      ∃ count : Nat, (depth, count) ∈ Step.allBuffers steps ∧ i < count

/-- **An element is covered if the server of its place has the level and the size.** -/
theorem covers_iff {stmts : List Statement} (h : statements d o t exprs = .ok stmts)
    {place : String} {server : Demand} (hserver : server? d t exprs place = some server)
    (depth : Nat) (i : Int) :
    Covers d t exprs place depth i ↔
      depth < pointerDepth server.type ∧ i < t.neededSize server.root depth := by
  have hplace := place_of_server? hserver
  have hlevels : 0 < pointerDepth server.type := by
    simpa [isPointer] using isPointer_of_server? hserver
  have hin : server ∈ demands d t exprs := by rwa [mem_demands, hplace]
  have hbuffers {steps : List Step} (hsteps : server.steps t = .ok steps) (count : Nat) :
      (depth, count) ∈ Step.allBuffers steps ↔
        depth < pointerDepth server.type ∧ count = t.neededSize server.root depth := by
    rw [mem_allBuffers_fill hsteps]
    omega
  constructor
  · rintro ⟨demand, hdemand, hsame, steps, hsteps, count, hcount, hlt⟩
    -- only the server is written as the place
    rw [mem_demands, hsame, hserver] at hdemand
    cases hdemand
    obtain ⟨hdepth, rfl⟩ := (hbuffers hsteps count).1 hcount
    exact ⟨hdepth, hlt⟩
  · rintro ⟨hdepth, hlt⟩
    obtain ⟨steps, hsteps⟩ := steps_of_statements h hin
    exact ⟨server, hin, hplace, steps, hsteps, _, (hbuffers hsteps _).2 ⟨hdepth, rfl⟩, hlt⟩

/-- A slot is large enough for an element if an access asks for as much, which the greatest index
never does; one element is there in any case. -/
theorem lt_neededSize_iff {accesses : List Access} (h : t.Records accesses) (root : String)
    (depth : Nat) {i : Int} (hi : 0 ≤ i) :
    i < t.neededSize root depth ↔
      i < Index.greatest ∧ (i = 0 ∨ ∃ j, Access.mk ⟨root, depth⟩ j ∈ accesses ∧ i ≤ j) := by
  obtain ⟨n, rfl⟩ := Int.eq_ofNat_of_zero_le hi
  have hsize (j : Int) : n < sizeForIndex j ↔ (n : Int) < Index.greatest ∧ (n : Int) ≤ j := by
    simp only [sizeForIndex, Index.greatest]
    omega
  have hneeded : n < t.neededSize root depth ↔
      n < (t.recordedSize? root depth).getD 0 ∨ n = 0 := by
    rw [Tables.neededSize]
    omega
  -- the size that is recorded is that of the furthest access
  rw [Int.ofNat_lt, hneeded, Tables.recordedSize?, h]
  simp only [hsize]
  constructor
  · rintro (⟨j, hin, hlt, hle⟩ | rfl)
    · exact ⟨hlt, .inr ⟨j, hin, hle⟩⟩
    · exact ⟨by decide, .inl rfl⟩
  · rintro ⟨hlt, hzero | ⟨j, hin, hle⟩⟩
    · exact .inr (by simpa using hzero)
    · exact .inl ⟨j, hin, hlt, hle⟩

/-! ### Accesses of a case -/

/-- The element `i` of a slot is accessed while the parameters of a case are resolved. -/
def Accessed (d : Declarations) (c : Case) (slot : Slot) (i : Int) : Prop :=
  Access.mk slot i ∈ d.resolutionAccesses (c.intake d)

/-- A symbol owns its storage, has a type that resolves to `type`, and is written as `expr`, which
is no element of another place. -/
structure NeedsBuffers (d : Declarations) (t : Tables) (exprs : Table Expr) (symbol type : String)
    (expr : Expr) : Prop where
  slot : t.slots[symbol]? = some (.ofRoot symbol)
  declared : t.types[symbol]?.map d.resolveType = some type
  bound : exprs[symbol]? = some expr
  notElement : expr.isIndex = false

theorem NeedsBuffers.exists_server {symbol type : String} {expr : Expr}
    (h : NeedsBuffers d t exprs symbol type expr) (howned : t.Owned)
    (hlevels : 0 < pointerDepth type) : ∃ server, server? d t exprs expr.render = some server := by
  obtain ⟨declared, hdeclared, rfl⟩ := Option.map_eq_some_iff.1 h.declared
  have hdemand : demand? d t exprs symbol =
      some ⟨symbol, expr.render, d.resolveType declared, symbol⟩ :=
    demand?_eq_some_iff.2 ⟨_, expr, declared, h.slot, h.bound, hdeclared,
      ⟨rfl, h.notElement, by simpa [isPointer] using hlevels⟩, rfl⟩
  have hin := List.mem_filterMap.2
    ⟨symbol, (howned.order symbol).2 (Table.mem_of_getElem? h.slot), hdemand⟩
  rw [← Option.isSome_iff_exists, server?, List.find?_isSome]
  exact ⟨_, hin, by simp⟩

section Case

variable {c : Case} {stmts : List Statement} {symbol type : String} {expr : Expr} {depth : Nat}

/-- What is covered of a place, by the accesses of the case that went to its server. -/
theorem covers_iff_accessed (hresolved : d.resolveParameters (c.intake d) = (.ok (), t))
    (hstmts : statements d o t exprs = .ok stmts) {place : String} {server : Demand}
    (hserver : server? d t exprs place = some server) {i : Int} (hi : 0 ≤ i) :
    Covers d t exprs place depth i ↔
      depth < pointerDepth server.type ∧ i < Index.greatest ∧
        (i = 0 ∨ ∃ j, Accessed d c ⟨server.root, depth⟩ j ∧ i ≤ j) := by
  have hrecords : t.Records (d.resolutionAccesses (c.intake d)) := by
    have := Declarations.records_resolveParameters d c
    rwa [hresolved] at this
  rw [covers_iff hstmts hserver, lt_neededSize_iff hrecords _ _ hi]
  rfl

/-- **The accesses of a symbol are covered exactly if the server of its place was accessed as far.**
The server needs as many levels of pointers as it takes to get there, and none of the accesses may
be at the greatest index. -/
theorem covers_accesses_iff (hresolved : d.resolveParameters (c.intake d) = (.ok (), t))
    (hstmts : statements d o t t.substituted = .ok stmts)
    (hsymbol : NeedsBuffers d t t.substituted symbol type expr)
    (hdepth : depth < pointerDepth type) :
    (∀ i, 0 ≤ i → Accessed d c ⟨symbol, depth⟩ i →
      Covers d t t.substituted expr.render depth i) ↔
    ∃ server, server? d t t.substituted expr.render = some server ∧
      ∀ i, 0 ≤ i → Accessed d c ⟨symbol, depth⟩ i →
        depth < pointerDepth server.type ∧ i < Index.greatest ∧
          (i = 0 ∨ ∃ j, Accessed d c ⟨server.root, depth⟩ j ∧ i ≤ j) := by
  have howned : t.Owned := .of_resolveParameters hresolved
  obtain ⟨server, hserver⟩ := hsymbol.exists_server howned (Nat.zero_lt_of_lt hdepth)
  constructor
  · intro h
    refine ⟨server, hserver, fun i hi hin => ?_⟩
    exact (covers_iff_accessed hresolved hstmts hserver hi).1 (h i hi hin)
  · rintro ⟨server', hserver', h⟩ i hi hin
    exact (covers_iff_accessed hresolved hstmts hserver' hi).2 (h i hi hin)

end Case

/-! A variable that is defined twice, and accessed further by way of the second definition. -/

/-- A function with a buffer as its argument. -/
def bufferFunction : Declarations where
  functions := .ofList [("foo", [TypedName.mk "p" "int *"])]

/-- Two symbols stand for the same argument. -/
def redefinedArgument : Case where
  parameters := .ofList [("reg_$5", "Element\x7breg_$0<int *,p>,2,int\x7d"),
    ("reg_$6", "Element\x7breg_$1<int *,p>,9,int\x7d")]

/-- What is known of the argument after its two definitions. -/
def redefinedTables : Tables :=
  (bufferFunction.resolveParameters (redefinedArgument.intake bufferFunction)).2

theorem run_redefinedArgument :
    (bufferFunction.resolveParameters (redefinedArgument.intake bufferFunction)).1 = .ok () ∧
    (statements bufferFunction {} redefinedTables redefinedTables.substituted).toBool = true ∧
    bufferFunction.resolutionAccesses (redefinedArgument.intake bufferFunction) =
      [⟨⟨"reg_$0", 0⟩, 2⟩, ⟨⟨"reg_$1", 0⟩, 9⟩] ∧
    server? bufferFunction redefinedTables redefinedTables.substituted "p" =
      some ⟨"reg_$0", "p", "int *", "reg_$0"⟩ ∧
    redefinedTables.neededSize "reg_$0" 0 = 3 ∧
    ∀ symbol ∈ ["reg_$0", "reg_$1"],
      redefinedTables.slots[symbol]? = some (.ofRoot symbol) ∧
      redefinedTables.types[symbol]?.map bufferFunction.resolveType = some "int *" ∧
      redefinedTables.substituted[symbol]? = some (.ident "p") := by
  decide +kernel

theorem resolveParameters_redefinedArgument :
    bufferFunction.resolveParameters (redefinedArgument.intake bufferFunction) =
      (.ok (), redefinedTables) :=
  Prod.ext run_redefinedArgument.1 rfl

theorem statements_redefinedArgument :
    ∃ stmts, statements bufferFunction {} redefinedTables redefinedTables.substituted =
      .ok stmts := by
  have hok := run_redefinedArgument.2.1
  cases h : statements bufferFunction {} redefinedTables redefinedTables.substituted with
  | error e => rw [h] at hok; cases hok
  | ok stmts => exact ⟨stmts, rfl⟩

theorem needsBuffers_redefinedArgument {symbol : String} (h : symbol ∈ ["reg_$0", "reg_$1"]) :
    NeedsBuffers bufferFunction redefinedTables redefinedTables.substituted symbol "int *"
      (.ident "p") := by
  obtain ⟨-, -, -, -, -, hsymbols⟩ := run_redefinedArgument
  obtain ⟨hslot, htype, hexpr⟩ := hsymbols symbol h
  exact ⟨hslot, htype, hexpr, rfl⟩

theorem accessed_redefinedArgument {slot : Slot} {i : Int} :
    Accessed bufferFunction redefinedArgument slot i ↔
      Access.mk slot i ∈ [Access.mk ⟨"reg_$0", 0⟩ 2, Access.mk ⟨"reg_$1", 0⟩ 9] := by
  rw [Accessed, run_redefinedArgument.2.2.1]

/-- By way of the first definition, which is the server, everything is covered. -/
theorem covers_accesses_redefinedArgument :
    ∃ t stmts,
      bufferFunction.resolveParameters (redefinedArgument.intake bufferFunction) = (.ok (), t) ∧
      statements bufferFunction {} t t.substituted = .ok stmts ∧
      NeedsBuffers bufferFunction t t.substituted "reg_$0" "int *" (.ident "p") ∧
      ∀ i, 0 ≤ i → Accessed bufferFunction redefinedArgument ⟨"reg_$0", 0⟩ i →
        Covers bufferFunction t t.substituted "p" 0 i := by
  obtain ⟨stmts, hstmts⟩ := statements_redefinedArgument
  have hneeds := needsBuffers_redefinedArgument (List.mem_cons_self : "reg_$0" ∈ _)
  refine ⟨redefinedTables, stmts, resolveParameters_redefinedArgument, hstmts, hneeds, ?_⟩
  refine (covers_accesses_iff resolveParameters_redefinedArgument hstmts hneeds (by decide)).2
    ⟨_, run_redefinedArgument.2.2.2.1, fun i _ hin => ⟨by decide, ?_⟩⟩
  obtain rfl : i = 2 := by simpa using accessed_redefinedArgument.1 hin
  exact ⟨by decide, .inr ⟨2, hin, Int.le_refl 2⟩⟩

/-- By way of the second definition, an element is accessed that the buffer does not have. -/
theorem not_covers_redefinedArgument :
    ∃ t stmts,
      bufferFunction.resolveParameters (redefinedArgument.intake bufferFunction) = (.ok (), t) ∧
      statements bufferFunction {} t t.substituted = .ok stmts ∧
      NeedsBuffers bufferFunction t t.substituted "reg_$1" "int *" (.ident "p") ∧
      0 < pointerDepth "int *" ∧ Accessed bufferFunction redefinedArgument ⟨"reg_$1", 0⟩ 9 ∧
      ¬Covers bufferFunction t t.substituted "p" 0 9 := by
  obtain ⟨stmts, hstmts⟩ := statements_redefinedArgument
  refine ⟨redefinedTables, stmts, resolveParameters_redefinedArgument, hstmts,
    needsBuffers_redefinedArgument (by decide), by decide,
    accessed_redefinedArgument.2 (by decide), ?_⟩
  obtain ⟨-, -, -, hserver, hsize, -⟩ := run_redefinedArgument
  rw [covers_iff hstmts hserver, hsize]
  decide

end TestSynth.Allocation
