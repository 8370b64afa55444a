import TestSynth.Proofs.Layers
import TestSynth.Proofs.Turns
import TestSynth.Proofs.Unfolding

/-!
# Capture of names

An expression ends in a name, and a name of the program may be the name of a parameter.  References
are numbered symbols, so what an expression stands for is found by following these alone, up to the
first name that is none: the *path* of the expression.  Substitution follows whatever is registered.
It comes to the same if the path ends in a name that is not registered, and it goes on otherwise.

* `Expr.Unfolds.trace_add` : a walk begins with every walk that follows fewer names.
* `Declarations.isSymbol_of_resolveParameters` : if the parameters are numbered symbols, so is all
  that is registered.
* `Declarations.substituted_path` : when substitution keeps to the paths.
-/

namespace TestSynth

/-- A numbered symbol, a register or a conjured one. -/
def isSymbol (name : String) : Bool :=
  Token.isNumbered "reg_$".toList name.toList ||
    Token.isNumbered conjuredMark.toList name.toList

/-- A name that refers to a numbered symbol. -/
def isReference (name : String) : Bool := isSymbol (referentOf name)

namespace Expr

/-- The expression of the symbol that a reference points to. Other names are not followed. -/
def reference? (exprs : Table Expr) (name : String) : Option Expr :=
  if isReference name then pointee? exprs name else none

variable {next? next?' : String → Option Expr} {exprs : Table Expr} {e path : Expr}
  {length : Nat} {name : String}

/-! ### Walks that follow fewer names -/

/-- A walk depends on the leaf of the expression alone. -/
theorem trace_graft (next? : String → Option Expr) (steps : Nat) (e : Expr) :
    (trace next? steps e).1 = e.graft (trace next? steps (ident e.leaf)).1 := by
  cases steps with
  | zero => exact e.graft_leaf.symm
  | succ steps =>
    rw [trace, trace, leaf]
    cases next? e.leaf with
    | none => exact e.graft_leaf.symm
    | some bound => rfl

/-- **A walk begins with every walk that follows fewer names.** -/
theorem Unfolds.trace_add (h : Unfolds next?' length e path)
    (hnext : ∀ name bound, next?' name = some bound → next? name = some bound) (steps : Nat) :
    (trace next? (length + steps) e).1 = path.graft (trace next? steps (ident path.leaf)).1 := by
  induction h with
  | @stays e h => rw [Nat.zero_add, trace_graft]
  | @follows e bound full length h _ ih =>
    rw [Nat.add_right_comm, trace, hnext _ _ h, leaf_graft, graft_graft, ← ih]

theorem Unfolds.of_next? (h : Unfolds next?' length e path)
    (hnext : ∀ name bound, next?' name = some bound → next? name = some bound)
    (hleaf : next? path.leaf = none) : Unfolds next? length e path := by
  induction h with
  | stays h => exact .stays hleaf
  | follows h _ ih =>
    rw [leaf_graft] at hleaf
    exact .follows (hnext _ _ h) (ih hleaf)

theorem trace_eq_of_not_unfolds (h : ¬∃ length path, Unfolds next?' length e path)
    (hnext : ∀ name bound, next?' name = some bound → next? name = some bound) (steps : Nat) :
    trace next? steps e = trace next?' steps e := by
  induction steps generalizing e with
  | zero => rfl
  | succ steps ih =>
    cases hleaf : next?' e.leaf with
    | none => exact absurd ⟨0, e, .stays hleaf⟩ h
    | some bound =>
      have hbound : ¬∃ length path, Unfolds next?' length bound path := by
        rintro ⟨length, path, hpath⟩
        exact h ⟨length + 1, _, .follows hleaf hpath⟩
      simp only [trace, hleaf, hnext _ _ hleaf, ih hbound]

/-! ### References -/

theorem pointee?_of_reference? {bound : Expr} (h : reference? exprs name = some bound) :
    pointee? exprs name = some bound := by
  rw [reference?] at h
  split at h
  · exact h
  · cases h

theorem pointee?_eq_reference? (h : ∀ s ∈ exprs, isSymbol s = true) (name : String) :
    pointee? exprs name = reference? exprs name := by
  rw [reference?]
  split
  · rfl
  · next hplain =>
    refine pointee?_eq_none_iff.2 fun bound hbound => ?_
    exact absurd (h _ (Table.mem_of_getElem? hbound)) hplain

theorem name?_trace (h : e.name? = none) (steps : Nat) : (trace next? steps e).1.name? = none := by
  rw [trace_graft]
  cases e with
  | ident name => cases h
  | index base i => rfl
  | field base name viaPointer => rfl
  | cast type inner => rfl

end Expr

/-! ### Substitution -/

namespace Tables

open TestSynth.Expr

variable {t : Tables} {s : String} {e path bound : Expr} {length : Nat}

theorem getElem?_substituted_trace (hs : t.exprs[s]? = some e) :
    t.substituted[s]? = some (trace (pointee? t.exprs) t.budget e).1 := by
  rw [getElem?_substituted hs, expand_eq]

theorem substituted_of_plain (hs : t.exprs[s]? = some e)
    (hpath : Unfolds (reference? t.exprs) length e path)
    (hleaf : pointee? t.exprs path.leaf = none) : t.substituted[s]? = some path := by
  have hfull := hpath.of_next? (fun _ _ => pointee?_of_reference?) hleaf
  rw [getElem?_substituted_trace hs,
    (hfull.trace_eq (hfull.lt_budget (fun _ _ => exists_of_pointee?) hs)).1]

/-- A path whose leaf names a symbol is captured, unless the symbols go in circles of names. -/
theorem substituted_ne_of_captured (hs : t.exprs[s]? = some e)
    (hpath : Unfolds (reference? t.exprs) length e path)
    (hleaf : pointee? t.exprs path.leaf = some bound)
    (hcircle : Acyclic (PointsTo t.exprs) ∨ bound.name? = none) :
    t.substituted[s]? ≠ some path := by
  intro hsubstituted
  rw [getElem?_substituted_trace hs] at hsubstituted
  have hsame := Option.some.inj hsubstituted
  rcases hcircle with hacyclic | hname
  · -- the walk comes to an end, and the leaf of the path is none
    obtain ⟨length', full, hfull⟩ := exists_unfolds hacyclic hs
    rw [(hfull.trace_eq (hfull.lt_budget (fun _ _ => exists_of_pointee?) hs)).1] at hsame
    have hend := hfull.next?_leaf
    rw [hsame, hleaf] at hend
    cases hend
  · -- at the leaf of the path there are steps left, and what it becomes is no name
    have hlt := hpath.lt_budget (fun _ _ h => exists_of_pointee? (pointee?_of_reference? h)) hs
    obtain ⟨steps, hbudget⟩ := Nat.exists_eq_add_of_lt hlt
    rw [hbudget, Nat.add_assoc, hpath.trace_add fun _ _ => pointee?_of_reference?] at hsame
    have hrest := graft_inj (hsame.trans path.graft_leaf.symm)
    rw [trace, leaf, hleaf] at hrest
    have hnone : (trace (pointee? t.exprs) steps bound).1.name? = none := name?_trace hname steps
    rw [show (trace (pointee? t.exprs) steps bound).1 = ident path.leaf from hrest] at hnone
    cases hnone

end Tables

namespace Declarations

open TestSynth.Expr

variable {d : Declarations} {c : Case} {t : Tables}

/-- If the parameters of a case are numbered symbols, so is all that is registered. -/
theorem isSymbol_of_resolveParameters (h : ∀ s ∈ (c.intake d).parameters, isSymbol s = true)
    (hok : d.resolveParameters (c.intake d) = (.ok (), t)) {s : String}
    (hs : t.isRegistered s = true) : isSymbol s = true := by
  have hturns := turns_of_resolveParameters hok
  clear hok
  induction hturns with
  | refl => simp [Case.intake, Tables.isRegistered] at hs
  | tail _ hturn ih =>
    obtain @⟨name, text, v, t, htext, hparse, -⟩ := hturn
    rcases isRegistered_turn.1 hs with rfl | ⟨x, hx, rfl⟩ | hs
    · exact h s (Table.mem_of_getElem? htext)
    · rw [isSymbol, Value.isNumbered_of_parse hparse hx, Bool.true_or]
    · exact ih hs

/-- **Where substitution keeps to the paths of references.**  In a case that was resolved, the
result of a symbol is its path exactly if the leaf of the path names no symbol, unless the symbols
go in circles of bare names.  So it is if all parameters are numbered symbols.  If the references
never come to a leaf, substitution never leaves them. -/
theorem substituted_path (hok : d.resolveParameters (c.intake d) = (.ok (), t)) {s : String}
    {e : Expr} (hs : t.exprs[s]? = some e) :
    (∀ length path, Unfolds (reference? t.exprs) length e path →
      (pointee? t.exprs path.leaf = none → t.substituted[s]? = some path) ∧
      (∀ bound, pointee? t.exprs path.leaf = some bound →
        Acyclic (PointsTo t.exprs) ∨ bound.name? = none → t.substituted[s]? ≠ some path) ∧
      ((∀ name ∈ (c.intake d).parameters, isSymbol name = true) →
        t.substituted[s]? = some path)) ∧
    ((¬∃ length path, Unfolds (reference? t.exprs) length e path) →
      t.substituted[s]? = some (trace (reference? t.exprs) t.budget e).1) := by
  refine ⟨fun length path hpath => ⟨fun hleaf => Tables.substituted_of_plain hs hpath hleaf,
    fun bound hleaf hcircle => Tables.substituted_ne_of_captured hs hpath hleaf hcircle,
    fun hparameters => Tables.substituted_of_plain hs hpath ?_⟩, fun hnever => ?_⟩
  · have hsymbols (name : String) (hname : name ∈ t.exprs) : isSymbol name = true :=
      isSymbol_of_resolveParameters hparameters hok
        (Tables.isRegistered_iff.2 (((Tables.Owned.of_resolveParameters hok).exprs name).1 hname))
    rw [pointee?_eq_reference? hsymbols, hpath.next?_leaf]
  · rw [Tables.getElem?_substituted_trace hs,
      trace_eq_of_not_unfolds hnever fun _ _ => pointee?_of_reference?]

/-- A parameter under the name of the argument that it is an element of, and one under another. -/
def nameSharingCase : Case where
  parameters := .ofList [("p", "Element\x7breg_$0<int *,p>,2,int\x7d"), ("x", "reg_$2"),
    ("reg_$2", "Element\x7breg_$1<char *,q>,1,char\x7d")]

theorem substituted_nameSharingCase :
    ∃ t, resolveParameters {} (nameSharingCase.intake {}) = (.ok (), t) ∧
      t.exprs["x"]? = some (.ident "reg_$2") ∧ t.substituted["x"]? = some (.index (.ident "q") 1) ∧
      t.exprs["p"]? = some (.index (.ident "p") 2) ∧
        t.substituted["p"]? ≠ some (.index (.ident "p") 2) := by
  have hrun : let outcome := resolveParameters {} (nameSharingCase.intake {})
      outcome.1 = .ok () ∧ outcome.2.exprs["x"]? = some (.ident "reg_$2") ∧
      outcome.2.exprs["p"]? = some (.index (.ident "p") 2) ∧
      reference? outcome.2.exprs "reg_$2" = some (.index (.ident "q") 1) ∧
      reference? outcome.2.exprs "q" = none ∧ pointee? outcome.2.exprs "q" = none ∧
      reference? outcome.2.exprs "p" = none ∧
      pointee? outcome.2.exprs "p" = some (.index (.ident "p") 2) := by decide +kernel
  obtain ⟨hfst, hx, hp, hfollowed, hplain, hq, hplain', hcaptured⟩ := hrun
  have hok : resolveParameters {} (nameSharingCase.intake {}) =
      (.ok (), (resolveParameters {} (nameSharingCase.intake {})).2) := Prod.ext hfst rfl
  refine ⟨_, hok, hx, ?_, hp, ?_⟩
  · exact ((substituted_path hok hx).1 1 _ (.follows hfollowed (.stays hplain))).1 hq
  · exact ((substituted_path hok hp).1 0 _ (.stays hplain')).2.1 _ hcaptured (.inr rfl)

/-- A function with a buffer as its argument. -/
def elementFunction : Declarations where
  functions := .ofList [("foo", [TypedName.mk "p" "int *"])]

/-- An element of the argument under the name of the argument. -/
def selfNamedElement : Case where
  parameters := .ofList [("p", "Element\x7breg_$0<int *,p>,2,int\x7d")]
  model := "p -> 5"
  types := .ofList [("p", "int")]

/-- The name of the argument is taken for a reference. -/
theorem not_substituted_selfNamedElement :
    ¬∀ (d : Declarations) (c : Case) (t : Tables), d.resolveParameters (c.intake d) = (.ok (), t) →
      ∀ (s : String) (e path : Expr) (length : Nat), t.exprs[s]? = some e →
        Unfolds (reference? t.exprs) length e path → t.substituted[s]? = some path := by
  intro hclaim
  have hrun : let outcome :=
        elementFunction.resolveParameters (selfNamedElement.intake elementFunction)
      outcome.1 = .ok () ∧ outcome.2.exprs["p"]? = some (.index (.ident "p") 2) ∧
      reference? outcome.2.exprs "p" = none ∧
      outcome.2.substituted["p"]? ≠ some (.index (.ident "p") 2) := by decide +kernel
  obtain ⟨hfst, hp, hplain, hne⟩ := hrun
  exact hne (hclaim elementFunction selfNamedElement _ (Prod.ext hfst rfl) "p" _ _ 0 hp
    (.stays hplain))

end Declarations

end TestSynth
