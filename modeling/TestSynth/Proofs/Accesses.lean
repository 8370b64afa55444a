import TestSynth.Case.Intake
import TestSynth.Proofs.Runs

/-!
# Accesses

An access is an index into the storage behind a slot, as the element of a base that has the slot.
The accesses of a value, of a reading and of a resolution are listed in the order in which they are
met, and the sizes in the tables are what these lists say: `Tables.Records`.

* `Tables.Records.bind` : what a value accesses is recorded.
* `Declarations.records_resolveParameters` : so is all that a resolution accesses.
-/

namespace TestSynth

/-- The element at `index` of the storage behind `slot`. -/
structure Access where
  slot : Slot
  index : Int
  deriving DecidableEq, Repr

variable (d : Declarations)

/-- The accesses of a value. -/
def Value.accesses : Value → Tables → List Access
  | atom _, _ => []
  | reference .., _ => []
  | element base index _ _, t =>
    base.accesses t ++ ((base.bind d t).1.slot.map fun slot => Access.mk slot index).toList
  | region inner _, t => inner.accesses t
  | definition _ _ inner _, t => inner.accesses t

namespace Declarations

/-- The accesses of a reading, those of the symbol that it refers to first. -/
def readingAccesses (resolve : String → Tables → Outcome Unit)
    (accesses : String → Tables → List Access) (reading : Except Value.Failure Value) (t : Tables) :
    List Access :=
  match Value.completed? reading with
  | none => []
  | some v =>
    v.referent?.elim [] (accesses · t) ++
      match follow resolve v t with
      | (.ok (), t) => v.accesses d t
      | (.error _, _) => []

/-- The accesses of the resolution of a symbol. -/
def resolveAccesses (limit : Nat) (pending : List String) (name : String) (t : Tables) :
    List Access :=
  if h : name ∈ pending then
    match t.isRegistered name, t.parameters[name]? with
    | false, some text =>
      have := length_erase_lt h
      d.readingAccesses (d.resolve limit (pending.erase name))
        (resolveAccesses limit (pending.erase name)) (Value.parse limit text) t
    | _, _ => []
  else []
termination_by pending.length

/-- The accesses of the resolution of some parameters, up to the first failure. -/
def resolveEachAccesses : List String → Tables → List Access
  | [], _ => []
  | name :: names, t =>
    d.resolveAccesses Value.defaultLimit t.parameters.keys name t ++
      match d.resolve Value.defaultLimit t.parameters.keys name t with
      | (.ok (), t) => resolveEachAccesses names t
      | (.error _, _) => []

/-- The accesses of the resolution of all parameters. -/
def resolutionAccesses (t : Tables) : List Access := d.resolveEachAccesses (schedule t) t

theorem readingAccesses_of_completed {resolve : String → Tables → Outcome Unit}
    {accesses : String → Tables → List Access} {reading : Except Value.Failure Value} {v : Value}
    {t : Tables} (h : Value.completed? reading = some v) :
    d.readingAccesses resolve accesses reading t =
      v.referent?.elim [] (accesses · t) ++
        match follow resolve v t with
        | (.ok (), t) => v.accesses d t
        | (.error _, _) => [] := by
  rw [readingAccesses, h]

/-- The accesses of a resolution, by the cases of the resolution itself. -/
theorem resolveAccesses_cases (limit : Nat) (pending : List String) (name : String) (t : Tables) :
    (d.resolve limit pending name t = (.ok (), t) ∧ d.resolveAccesses limit pending name t = []) ∨
    ∃ text, name ∈ pending ∧
      d.resolve limit pending name t =
        registered name text
          (d.bindReading (d.resolve limit (pending.erase name)) (Value.parse limit text) t) ∧
      d.resolveAccesses limit pending name t =
        d.readingAccesses (d.resolve limit (pending.erase name))
          (d.resolveAccesses limit (pending.erase name)) (Value.parse limit text) t := by
  rw [resolveAccesses]
  rcases d.resolve_cases limit pending name t with ⟨hsettled, h⟩ | ⟨text, hmem, hreg, htext, h⟩
  · refine .inl ⟨h, ?_⟩
    by_cases hmem : name ∈ pending
    · rw [dif_pos hmem]
      rcases hsettled hmem with hreg | hin
      · rw [hreg]
      · rw [Std.ExtTreeMap.getElem?_eq_none hin]
        cases t.isRegistered name <;> rfl
    · rw [dif_neg hmem]
  · refine .inr ⟨text, hmem, h, ?_⟩
    rw [dif_pos hmem, hreg, htext]

end Declarations

/-! ### What is recorded -/

/-- The sizes are what some accesses ask for: a slot has more than `n` elements if one of its
accesses needs more. -/
def Tables.Records (t : Tables) (accesses : List Access) : Prop :=
  ∀ (slot : Slot) (n : Nat), n < t.sizes[slot]?.getD 0 ↔
    ∃ index, Access.mk slot index ∈ accesses ∧ n < sizeForIndex index

namespace Tables.Records

variable {d} {t t' : Tables} {accesses more : List Access}

theorem intake (d : Declarations) (c : Case) : (c.intake d).Records [] := by
  intro slot n
  simp [Case.intake]

theorem of_sizes_eq (h : t.Records accesses) (hsizes : t'.sizes = t.sizes) :
    t'.Records accesses := by
  intro slot n
  rw [hsizes]
  exact h slot n

theorem recordSize (h : t.Records accesses) (slot : Slot) (index : Int) :
    (t.recordSize slot (sizeForIndex index)).Records (accesses ++ [⟨slot, index⟩]) := by
  intro slot' n
  have hold := h slot' n
  simp only [List.mem_append, List.mem_singleton, Access.mk.injEq]
  -- the size of the slot itself is the larger of two, that of any other slot stays
  by_cases heq : slot' = slot
  · subst heq
    have hsize : (t.recordSize slot' (sizeForIndex index)).sizes[slot']?.getD 0 =
        max (t.sizes[slot']?.getD 0) (sizeForIndex index) := by
      rw [Tables.recordSize, Std.ExtTreeMap.getElem?_insert_self]
      rfl
    have hmax (k l : Nat) : n < max k l ↔ n < k ∨ n < l := by omega
    rw [hsize, hmax, hold]
    constructor
    · rintro (⟨index', hin, hlt⟩ | hlt)
      · exact ⟨index', .inl hin, hlt⟩
      · exact ⟨index, .inr ⟨rfl, rfl⟩, hlt⟩
    · rintro ⟨index', hin | ⟨-, rfl⟩, hlt⟩
      · exact .inl ⟨index', hin, hlt⟩
      · exact .inr hlt
  · have hsize : (t.recordSize slot (sizeForIndex index)).sizes[slot']? = t.sizes[slot']? := by
      rw [Tables.recordSize, Std.ExtTreeMap.getElem?_insert, if_neg]
      exact fun hcmp => heq (Std.compare_eq_iff_eq.1 hcmp).symm
    rw [hsize, hold]
    constructor
    · rintro ⟨index', hin, hlt⟩
      exact ⟨index', .inl hin, hlt⟩
    · rintro ⟨index', hin | ⟨hslot, -⟩, hlt⟩
      · exact ⟨index', hin, hlt⟩
      · exact absurd hslot heq

theorem register (h : t.Records accesses) (name text : String) (expr : Expr)
    (type? : Option String) (slot : Slot) :
    (t.register name text expr type? slot).Records accesses :=
  h.of_sizes_eq (sizes_register ..)

theorem bindElement (h : t.Records accesses) (b : Bound) (index : Int) (type : String) :
    (Value.bindElement d b index type t).2.Records
      (accesses ++ (b.slot.map fun slot => Access.mk slot index).toList) := by
  obtain ⟨base, types, heq⟩ := Value.bindElement_eq d b index type t
  rw [heq, Value.elementOver]
  have htypes : ({ t with types } : Tables).Records accesses := h.of_sizes_eq rfl
  cases b.slot with
  | none => simpa using htypes
  | some slot => exact htypes.recordSize slot index

/-- **What a value accesses is recorded**, and nothing else. -/
theorem bind (h : t.Records accesses) (v : Value) :
    (v.bind d t).2.Records (accesses ++ v.accesses d t) := by
  induction v generalizing t accesses with
  | atom text => simpa [Value.accesses, Value.bind] using h
  | reference symbol text => simpa [Value.accesses, Value.bind] using h
  | element base index type fields ih =>
    have helement := (ih h).bindElement (d := d) (base.bind d t).1 index type
    rw [List.append_assoc] at helement
    simp only [Value.bind, Value.accesses]
    split <;> exact helement
  | region inner fields ih =>
    simp only [Value.bind, Value.accesses]
    split <;> exact ih h
  | definition name type inner source ih => exact (ih h).register name source _ _ _

end Tables.Records

namespace Declarations

variable {d} {t : Tables} {accesses : List Access}

theorem records_bindReading {resolve : String → Tables → Outcome Unit}
    {more : String → Tables → List Access}
    (hresolve : ∀ symbol t accesses, t.Records accesses →
      (resolve symbol t).2.Records (accesses ++ more symbol t))
    (h : t.Records accesses) (reading : Except Value.Failure Value) :
    (d.bindReading resolve reading t).2.Records
      (accesses ++ d.readingAccesses resolve more reading t) := by
  have hfollow (v : Value) :
      (follow resolve v t).2.Records (accesses ++ v.referent?.elim [] (more · t)) := by
    rw [follow]
    cases v.referent? with
    | none => simpa using h
    | some symbol => exact hresolve symbol t accesses h
  -- what could be read is bound after what it refers to, be it the whole value or a part of it
  have hbound {v : Value} {t' : Tables} (hread : Value.completed? reading = some v)
      (heq : follow resolve v t = (.ok (), t')) :
      (v.bind d t').2.Records (accesses ++ d.readingAccesses resolve more reading t) := by
    have hfollowed := hfollow v
    rw [heq] at hfollowed
    rw [readingAccesses_of_completed d hread, heq, ← List.append_assoc]
    exact hfollowed.bind v
  have hspec := d.bindReading_spec resolve reading t
  generalize d.bindReading resolve reading t = outcome at hspec
  cases hspec with
  | nothing e => simpa [readingAccesses, Value.completed?] using h
  | @unresolved _ v e t' hread heq =>
    have hfollowed := hfollow v
    rw [heq] at hfollowed
    simpa [readingAccesses_of_completed d hread, heq] using hfollowed
  | partly e heq => exact hbound rfl heq
  | wholly heq => exact hbound rfl heq

theorem records_registered {name text : String} {outcome : Outcome Bound}
    (h : outcome.2.Records accesses) : (registered name text outcome).2.Records accesses := by
  obtain ⟨outcome, t⟩ := outcome
  cases outcome with
  | error e => exact h
  | ok b => exact Tables.Records.register h name text _ _ _

theorem records_resolve (limit : Nat) (pending : List String) (name : String)
    (h : t.Records accesses) :
    (d.resolve limit pending name t).2.Records
      (accesses ++ d.resolveAccesses limit pending name t) := by
  induction pending using pending_induction generalizing name t accesses with
  | step pending ih =>
    rcases d.resolveAccesses_cases limit pending name t with ⟨heq, haccesses⟩ |
      ⟨text, hmem, heq, haccesses⟩
    · rw [heq, haccesses]
      simpa using h
    · rw [heq, haccesses]
      exact records_registered
        (records_bindReading (fun symbol t accesses h => ih name hmem symbol h) h _)

theorem records_resolveEach (names : List String) (h : t.Records accesses) :
    (d.resolveEach names t).2.Records (accesses ++ d.resolveEachAccesses names t) := by
  induction names generalizing t accesses with
  | nil => simpa [resolveEach, resolveEachAccesses] using h
  | cons name names ih =>
    have hname := records_resolve (d := d) Value.defaultLimit t.parameters.keys name h
    rw [resolveEach, resolveEachAccesses]
    generalize d.resolve Value.defaultLimit t.parameters.keys name t = outcome at hname ⊢
    obtain ⟨outcome, u⟩ := outcome
    cases outcome with
    | error e => simpa using hname
    | ok _ =>
      have := ih hname
      rwa [List.append_assoc] at this

/-- **The sizes of a case are what the accesses of its resolution ask for.** -/
theorem records_resolveParameters (d : Declarations) (c : Case) :
    (d.resolveParameters (c.intake d)).2.Records (d.resolutionAccesses (c.intake d)) :=
  records_resolveEach _ (Tables.Records.intake d c)

end Declarations

end TestSynth
