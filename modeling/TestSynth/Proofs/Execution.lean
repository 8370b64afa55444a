import TestSynth.Proofs.IndexText
import TestSynth.Proofs.Memory
import TestSynth.Proofs.PointerLevels
import Mathlib.Data.List.DropRight

/-!
# Execution of allocations

The statements that fill a place are run in a memory.  A target is read as the text of the place and
subscripts that name counters in scope, a value as a request for a number of elements of a type, and
a loop must have a counter that no loop around it has.

* `Allocation.subscripts?_subscriptText` : subscripts are read back, however the counters are named.
* `Allocation.request?_request` : so is a request for a buffer.
* `Allocation.run_fill` : filling a location makes no fault and changes no other location.
* `Allocation.run_steps` : when a demand is met, all elements have the buffers that they need.
-/

namespace TestSynth

namespace Text

theorem before?_append (mark s : List Char) : before? mark (s ++ mark) = some s := by
  have h : after? mark.reverse (s ++ mark).reverse = some s.reverse :=
    after?_eq_some.2 List.reverse_append
  rw [before?, h, Option.map_some, List.reverse_reverse]

end Text

namespace Allocation

open Text (after? before? after?_eq_some before?_append)

/-! ### Reading targets -/

/-- The counters in scope with their values, the innermost one first. -/
abbrev Scope := List (String × Nat)

/-- The value of the counter in the subscript that a text begins with, and what follows it. -/
def subscript? (scope : Scope) (s : List Char) : Option (Nat × List Char) :=
  scope.findSome? fun counter => (after? ("[" ++ counter.1 ++ "]").toList s).map (counter.2, ·)

theorem length_subscript? {scope : Scope} {s rest : List Char} {i : Nat}
    (h : subscript? scope s = some (i, rest)) : rest.length < s.length := by
  obtain ⟨counter, -, h⟩ := List.exists_of_findSome?_eq_some h
  obtain ⟨rest', hafter, h⟩ := Option.map_eq_some_iff.1 h
  cases h
  have hlen := congrArg List.length (after?_eq_some.1 hafter)
  simp only [String.toList_append, List.length_append] at hlen
  have : 0 < "[".toList.length := by decide
  omega

/-- The values of the counters in a text of subscripts. -/
def subscripts? (scope : Scope) (s : List Char) : Option (List Nat) :=
  if s.isEmpty then some []
  else
    match h : subscript? scope s with
    | some (i, rest) =>
      have := length_subscript? h
      (subscripts? scope rest).map (i :: ·)
    | none => none
termination_by s.length

variable (o : Options)

/-- The element and the number of elements of the buffer that a text asks for. -/
def request? (value : String) : Option (String × Nat) := do
  let request ← after? (o.allocator ++ "(sizeof(").toList value.toList
  let product ← before? ")".toList request
  let element ← before? ") * ".toList (product.rdropWhile Char.isDigit)
  let count ← Index.natural? 10 (product.rtakeWhile Char.isDigit)
  return (String.ofList element, count)

/-! ### Execution -/

mutual

/-- Executes a statement that fills `place`. -/
def exec (place : String) (scope : Scope) (m : Memory) : Statement → Except Fault Memory
  | .assign target value =>
    match (after? place.toList target.toList).bind (subscripts? scope), request? o value with
    | some indices, some (element, count) => do m.allocate (← m.locate indices) element count
    | _, _ => .error .unreadable
  | .loop counter bound body =>
    if scope.any (·.1 == counter) then .error (.counterInUse counter)
    else (List.range bound).foldlM (fun m i => execAll place ((counter, i) :: scope) m body) m
  | .declare _ _ | .call _ _ => .error .unreadable

/-- Executes some statements that fill `place`. -/
def execAll (place : String) (scope : Scope) (m : Memory) : List Statement → Except Fault Memory
  | [] => .ok m
  | s :: rest => do execAll place scope (← exec place scope m s) rest

end

/-- Executes the statements that fill `place`, from an empty memory. -/
def run (place : String) (stmts : List Statement) : Except Fault Memory :=
  execAll o place [] {} stmts

variable {o}

/-! ### Subscripts are read back -/

/-- The counters that lead to an element, with their values. -/
def scopeOf (o : Options) (indices : List Nat) : Scope :=
  (indices.zipIdx.map fun (i, k) => (counterName o k, i)).reverse

theorem scopeOf_concat (indices : List Nat) (i : Nat) :
    scopeOf o (indices ++ [i]) = (counterName o indices.length, i) :: scopeOf o indices := by
  simp [scopeOf, List.zipIdx_append]

/-- A subscript that names a counter. -/
def subscriptText (o : Options) (counter : Nat) : String := "[" ++ counterName o counter ++ "]"

/-- A subscript is not the beginning of another one: its number ends at the bracket. -/
theorem after?_subscriptText (j k : Nat) (s : List Char) :
    after? (subscriptText o j).toList ((subscriptText o k).toList ++ s) =
      if j = k then some s else none := by
  by_cases hjk : j = k
  · subst hjk
    rw [if_pos rfl, after?_eq_some]
  · rw [if_neg hjk]
    cases hafter : after? (subscriptText o j).toList ((subscriptText o k).toList ++ s) with
    | none => rfl
    | some rest =>
      have hread (k : Nat) (s : List Char) :
          ((k + 1).repr.toList ++ ']' :: s).takeWhile Char.isDigit = (k + 1).repr.toList := by
        rw [List.takeWhile_append_of_pos fun c => Index.isDigit_of_mem_repr,
          List.takeWhile_cons_of_neg (by decide), List.append_nil]
      have htext (k : Nat) (s : List Char) : (subscriptText o k).toList ++ s =
          ("[" ++ o.counterMark).toList ++ ((k + 1).repr.toList ++ ']' :: s) := by
        simp [subscriptText, counterName, String.toList_append]
      have hsame := after?_eq_some.1 hafter
      rw [htext, htext, List.append_cancel_left_eq] at hsame
      have hrepr := congrArg (List.takeWhile Char.isDigit) hsame
      rw [hread, hread] at hrepr
      exact absurd (Nat.succ.inj (Index.repr_inj hrepr)).symm hjk

theorem counterName_inj {j k : Nat} (h : counterName o j = counterName o k) : j = k := by
  have hself := after?_subscriptText (o := o) j k []
  rw [subscriptText, subscriptText, h, after?_eq_some.2 rfl] at hself
  by_contra hne
  rw [if_neg hne] at hself
  cases hself

theorem any_scopeOf {indices : List Nat} {k : Nat} (hk : indices.length ≤ k) :
    (scopeOf o indices).any (·.1 == counterName o k) = false := by
  induction indices using List.reverseRecOn with
  | nil => rfl
  | append_singleton indices i ih =>
    rw [List.length_append, List.length_singleton] at hk
    have hne : (counterName o indices.length == counterName o k) = false :=
      beq_eq_false_iff_ne.2 fun h => absurd (counterName_inj h) (Nat.ne_of_lt hk)
    rw [scopeOf_concat, List.any_cons, hne, ih (Nat.le_of_succ_le hk), Bool.or_false]

theorem subscript?_cons (counter : String) (i : Nat) (scope : Scope) (s : List Char) :
    subscript? ((counter, i) :: scope) s =
      ((after? ("[" ++ counter ++ "]").toList s).map (i, ·)).or (subscript? scope s) := by
  rw [subscript?, List.findSome?_cons]
  dsimp only
  cases after? ("[" ++ counter ++ "]").toList s <;> rfl

theorem subscript?_subscriptText {indices : List Nat} {k i : Nat} (hk : indices[k]? = some i)
    (s : List Char) :
    subscript? (scopeOf o indices) ((subscriptText o k).toList ++ s) = some (i, s) := by
  induction indices using List.reverseRecOn with
  | nil => cases hk
  | append_singleton indices last ih =>
    rw [scopeOf_concat, subscript?_cons, ← subscriptText.eq_1 o, after?_subscriptText]
    by_cases hlast : indices.length = k
    · subst hlast
      rw [List.getElem?_concat_length, Option.some.injEq] at hk
      rw [if_pos rfl, hk]
      rfl
    · rw [if_neg hlast]
      refine ih ?_
      have hlt := (List.getElem?_eq_some_iff.1 hk).1
      rw [List.length_append, List.length_singleton] at hlt
      rwa [List.getElem?_append_left (by omega)] at hk

theorem subscripts?_cons {scope : Scope} {s rest : List Char} {i : Nat}
    (h : subscript? scope s = some (i, rest)) :
    subscripts? scope s = (subscripts? scope rest).map (i :: ·) := by
  have hne : s.isEmpty = false := by
    cases s with
    | nil => exact absurd (length_subscript? h) (Nat.not_lt_zero _)
    | cons c s => rfl
  rw [subscripts?, if_neg (by simp [hne])]
  split
  · next i' rest' h' =>
    rw [h] at h'
    cases h'
    rfl
  · next h' =>
    rw [h] at h'
    cases h'

/-- Subscripts are read as the values of the counters that they name. -/
theorem subscripts?_subscriptText {indices counters values : List Nat}
    (h : counters.map (indices[·]?) = values.map some) :
    subscripts? (scopeOf o indices) (String.join (counters.map (subscriptText o))).toList =
      some values := by
  induction counters generalizing values with
  | nil =>
    obtain rfl : values = [] := by simpa using h
    rw [subscripts?]
    rfl
  | cons k counters ih =>
    cases values with
    | nil => cases h
    | cons i values =>
      rw [List.map_cons, List.map_cons, List.cons.injEq] at h
      rw [List.map_cons, String.join_cons, String.toList_append,
        subscripts?_cons (subscript?_subscriptText h.1 _), ih h.2]
      rfl

theorem subscripts?_elementText (place : String) (indices : List Nat) :
    (after? place.toList (elementText o place (List.range indices.length)).toList).bind
      (subscripts? (scopeOf o indices)) = some indices := by
  have hall : (List.range indices.length).map (indices[·]?) = indices.map some :=
    List.ext_getElem (by simp) fun k _ hk => by
      rw [List.length_map] at hk
      simp [List.getElem?_eq_getElem hk]
  rw [elementText, String.toList_append, after?_eq_some.2 rfl]
  exact subscripts?_subscriptText hall

/-- A request is read as the element and the number that it was made of. -/
theorem request?_request (element : String) (count : Nat) :
    request? o (request o element count) = some (element, count) := by
  have hdigits {c : Char} (hc : c ∈ count.repr.toList) : c.isDigit = true :=
    Index.isDigit_of_mem_repr hc
  have hdrop : ((element.toList ++ ") * ".toList) ++ count.repr.toList).rdropWhile Char.isDigit =
      element.toList ++ ") * ".toList := by
    have hmark : element.toList ++ ") * ".toList = element.toList ++ ") *".toList ++ [' '] := by
      simp
    rw [Text.rdropWhile_append _ fun c => hdigits, hmark,
      List.rdropWhile_concat_neg _ _ _ (by decide)]
  have htake : ((element.toList ++ ") * ".toList) ++ count.repr.toList).rtakeWhile Char.isDigit =
      count.repr.toList := by
    have hboth := List.rdropWhile_append_rtakeWhile (p := Char.isDigit)
      (l := (element.toList ++ ") * ".toList) ++ count.repr.toList)
    rwa [hdrop, List.append_cancel_left_eq] at hboth
  have htext : (request o element count).toList = (o.allocator ++ "(sizeof(").toList ++
      (((element.toList ++ ") * ".toList) ++ count.repr.toList) ++ ")".toList) := by
    simp [request, String.toList_append]
  rw [request?, htext, after?_eq_some.2 rfl, Option.bind_eq_bind, Option.bind_some, before?_append,
    Option.bind_eq_bind, Option.bind_some, hdrop, htake, before?_append, Index.natural?_repr]
  simp

/-! ### Filling is safe -/

/-- What holds at first and is kept by each turn of a loop holds after the loop. -/
theorem foldlM_range_ok {ε σ : Type} {f : σ → Nat → Except ε σ} {s : σ} {n : Nat}
    (P : Nat → σ → Prop) (hfirst : P 0 s)
    (hturn : ∀ i < n, ∀ s, P i s → ∃ s', f s i = .ok s' ∧ P (i + 1) s') :
    ∃ s', (List.range n).foldlM f s = .ok s' ∧ P n s' := by
  induction n with
  | zero => exact ⟨s, rfl, hfirst⟩
  | succ n ih =>
    obtain ⟨s', hs', hP⟩ := ih fun i hi => hturn i (Nat.lt_succ_of_lt hi)
    obtain ⟨s'', hs'', hP'⟩ := hturn n (Nat.lt_succ_self n) s' hP
    refine ⟨s'', ?_, hP'⟩
    rw [List.range_succ, List.foldlM_append, hs']
    show List.foldlM f s' [n] = _
    rw [List.foldlM_cons, hs'']
    rfl

section Fill

variable {t : Tables} {type root : String} (place : String) {m : Memory} {l : Location}
  {indices : List Nat} {below depth : Nat} {steps : List Step}

theorem exec_allocate (hpath : m.Path indices l) (element : String) (count : Nat) :
    exec o place (scopeOf o indices) m
      (Step.statement o place (.allocate (List.range indices.length) element count)) =
      m.allocate l element count := by
  rw [Step.statement, exec, subscripts?_elementText, request?_request]
  show (m.locate indices >>= _) = _
  rw [hpath.locate]
  rfl

/-- **Filling a location makes no fault**, changes no other location and provides all buffers. -/
theorem run_fill (h : fill t type root below depth = .ok steps) (hdepth : indices.length = depth)
    (hpath : m.Path indices l) {c : Option Nat} (hcontent : m.content? l = some c) :
    ∃ m', execAll o place (scopeOf o indices) m (Step.statements o place steps) = .ok m' ∧
      m.Frame m' l ∧ m'.Filled t type root below depth l := by
  induction below generalizing depth steps indices m l c with
  | zero =>
    obtain ⟨element, rest, helement, rfl, ⟨-, rfl⟩ | ⟨below', inner, hbelow, -, -⟩⟩ := fill_ok h
    · obtain ⟨m', hm', hframe, hholds⟩ := Memory.allocate_holds t root hcontent helement
      refine ⟨m', ?_, hframe, _, hholds⟩
      subst hdepth
      rw [Step.statements, execAll, exec_allocate place hpath, hm']
      rfl
    · cases hbelow
  | succ below ih =>
    obtain ⟨element, rest, helement, rfl, ⟨hbelow, -⟩ | ⟨below', inner, hbelow, hinner, rfl⟩⟩ :=
      fill_ok h
    · cases hbelow
    · cases hbelow
      obtain ⟨m₁, hm₁, hframe, hholds⟩ := Memory.allocate_holds t root hcontent helement
      -- each turn runs the body with its own value of the counter, on the element of that number
      obtain ⟨m', hm', hfilling⟩ := foldlM_range_ok (n := t.neededSize root depth)
        (f := fun m i => execAll o place ((counterName o depth, i) :: scopeOf o indices) m
          (Step.statements o place inner))
        (fun i m₂ => m.Filling m₂ t type root below depth l m.blocks.length i)
        ⟨hframe, hholds, fun i hi => absurd hi (Nat.not_lt_zero i)⟩ fun i hi m₂ hfilling => by
          obtain ⟨b, hb, -, hlength⟩ := hfilling.holds.block
          have hcell : m₂.content? (.cell m.blocks.length i) = some b.cells[i] :=
            (Memory.content?_cell hb i).trans (List.getElem?_eq_getElem (hlength ▸ hi))
          have hpath' := (hpath.of_frame hfilling.frame (Nat.le_refl _)).concat i
            hfilling.holds.content hfilling.holds.above
          obtain ⟨m₃, hm₃, hframe', hfilled⟩ :=
            ih hinner (by rw [List.length_append, hdepth]; rfl) hpath' hcell
          rw [scopeOf_concat, hdepth] at hm₃
          exact ⟨m₃, hm₃, hfilling.turn hframe' hfilled⟩
      refine ⟨m', ?_, hfilling.frame, _, hfilling.holds, hfilling.filled⟩
      subst hdepth
      rw [Step.statements, execAll, exec_allocate place hpath, hm₁]
      show execAll o place _ m₁ _ = _
      rw [Step.statements, execAll, Step.statement, exec,
        if_neg (by rw [any_scopeOf (Nat.le_refl _)]; decide), hm']
      rfl

end Fill

/-- **When a demand is met, its place is filled exactly as demanded.** The statements run from an
empty memory without a fault, and then all indices within the recorded sizes lead to a buffer of the
recorded size, whose elements have the levels of pointers that are left. -/
theorem run_steps {t : Tables} {demand : Demand} {steps : List Step}
    (h : demand.steps t = .ok steps) :
    ∃ m, run o demand.place (Step.statements o demand.place steps) = .ok m ∧
      ∀ indices : List Nat, indices.length < pointerDepth demand.type →
        (∀ k, ∀ hk : k < indices.length, indices[k] < t.neededSize demand.root k) →
        ∃ block, m.blockAt indices = .ok block ∧
          block.cells.length = t.neededSize demand.root indices.length ∧
          pointerDepth block.element = pointerDepth demand.type - indices.length - 1 := by
  obtain ⟨m, hm, -, hfilled⟩ := run_fill (o := o) demand.place h rfl .nil rfl
  refine ⟨m, hm, fun indices hlevels hsize => ?_⟩
  obtain ⟨block, hblock, helement, hlength⟩ :=
    hfilled.blockAt .nil indices (by omega) fun k hk => by
      rw [Nat.zero_add]
      exact hsize k hk
  rw [Nat.zero_add] at helement hlength
  exact ⟨block, hblock, hlength, (pointerDepth_elementType helement).2⟩

/-! A matrix of three rows with two numbers each. -/

/-- A place for a matrix. -/
def matrix : Demand := ⟨"reg_$0", "p", "int **", "reg_$0"⟩

/-- The sizes of the matrix. -/
def matrixSizes : Tables :=
  (({} : Tables).recordSize ⟨"reg_$0", 0⟩ 3).recordSize ⟨"reg_$0", 1⟩ 2

/-- The third row of the matrix gets its two numbers. -/
theorem run_steps_matrix :
    ∃ steps m block, matrix.steps matrixSizes = .ok steps ∧
      run {} "p" (Step.statements {} "p" steps) = .ok m ∧ m.blockAt [2] = .ok block ∧
      block.cells.length = 2 ∧ pointerDepth block.element = 0 := by
  have hevaluated : (matrix.steps matrixSizes).toBool = true ∧
      matrixSizes.neededSize "reg_$0" 0 = 3 ∧ matrixSizes.neededSize "reg_$0" 1 = 2 := by
    decide +kernel
  obtain ⟨hok, hrows, hcolumns⟩ := hevaluated
  cases hsteps : matrix.steps matrixSizes with
  | error e =>
    rw [hsteps] at hok
    cases hok
  | ok steps =>
    obtain ⟨m, hm, hblocks⟩ := run_steps (o := {}) hsteps
    obtain ⟨block, hblock, hlength, hlevels⟩ := hblocks [2] (by decide) fun k hk => by
      obtain rfl : k = 0 := Nat.lt_one_iff.1 hk
      show 2 < matrixSizes.neededSize "reg_$0" 0
      rw [hrows]
      decide
    exact ⟨steps, m, block, rfl, hm, hblock, hlength.trans hcolumns, hlevels.trans (by decide)⟩

end Allocation

end TestSynth
