import TestSynth.Code.TestFunction
import TestSynth.Proofs.IndexText
import TestSynth.Proofs.Lexing
import Mathlib.Data.List.Nodup
import Mathlib.Logic.Function.Basic

/-!
# Registration

A registry is asked about one digest after the other, and its answers depend on the digests alone:
the first case with a digest is accepted, and the accepted cases are numbered from one.  Workers
that share a registry take turns in any order; since a call is one step, what they see is what the
registry answers to the digests of their calls, in the order of the turns.

* `Registry.isSome_getElem_answers` : who comes first with a digest is accepted, and nobody else.
* `Registry.numbers_answers` : the accepted ones get consecutive numbers.
* `TestFunction.testName_inj` : the name of a test tells its number.
* `Workers.run_orderly` : all of this holds for any number of workers and any order of their turns.
-/

namespace TestSynth

/-! ### One digest after the other -/

namespace Registry

/-- The answers to some digests, one after the other. -/
def answers : Registry → List Digest → List (Option Nat)
  | _, [] => []
  | r, x :: xs => (r.register x).1 :: answers (r.register x).2 xs

/-- The registry after some digests. -/
def after : Registry → List Digest → Registry
  | r, [] => r
  | r, x :: xs => after (r.register x).2 xs

variable {r : Registry} {x y : Digest}

theorem register_of_mem (h : x ∈ r.accepted) : r.register x = (none, r) := by
  rw [register, if_pos h]

theorem register_of_not_mem (h : x ∉ r.accepted) :
    r.register x = (some (r.size + 1), ⟨x :: r.accepted⟩) := by
  rw [register, if_neg h]

theorem isSome_register : (r.register x).1.isSome = true ↔ x ∉ r.accepted := by
  by_cases h : x ∈ r.accepted
  · simp [register_of_mem h, h]
  · simp [register_of_not_mem h, h]

/-- A digest that was registered is known, whatever the answer was. -/
theorem mem_accepted_register : y ∈ (r.register x).2.accepted ↔ y = x ∨ y ∈ r.accepted := by
  by_cases h : x ∈ r.accepted
  · rw [register_of_mem h]
    constructor
    · exact .inr
    · rintro (rfl | hy)
      · exact h
      · exact hy
  · rw [register_of_not_mem h]
    exact List.mem_cons

theorem register_of_isNone (h : (r.register x).1 = none) : (r.register x).2 = r := by
  by_cases hx : x ∈ r.accepted
  · rw [register_of_mem hx]
  · rw [register_of_not_mem hx] at h
    cases h

theorem length_answers (r : Registry) (xs : List Digest) :
    (r.answers xs).length = xs.length := by
  induction xs generalizing r with
  | nil => rfl
  | cons x xs ih => rw [answers, List.length_cons, ih, List.length_cons]

/-- **Who comes first with a digest is accepted**, and nobody else. -/
theorem isSome_getElem_answers (r : Registry) (xs : List Digest) {i : Nat} (hi : i < xs.length)
    (hi' : i < (r.answers xs).length) :
    (r.answers xs)[i].isSome = true ↔
      xs[i] ∉ r.accepted ∧ ∀ (j : Nat) (hj : j < i), xs[j] ≠ xs[i] := by
  induction xs generalizing r i with
  | nil => cases hi
  | cons x xs ih =>
    cases i with
    | zero =>
      simp only [answers, List.getElem_cons_zero, isSome_register]
      exact ⟨fun h => ⟨h, nofun⟩, And.left⟩
    | succ i =>
      -- the first digest is known from then on
      simp only [answers, List.getElem_cons_succ]
      rw [ih _ (by simpa using hi) (by simpa [answers] using hi'), mem_accepted_register, not_or]
      constructor
      · rintro ⟨⟨hne, hnew⟩, hfirst⟩
        refine ⟨hnew, fun j hj => ?_⟩
        cases j with
        | zero => exact Ne.symm hne
        | succ j => exact hfirst j (by omega)
      · rintro ⟨hnew, hfirst⟩
        exact ⟨⟨Ne.symm (hfirst 0 (by omega)), hnew⟩, fun j hj => hfirst (j + 1) (by omega)⟩

theorem size_le_after (r : Registry) (xs : List Digest) : r.size ≤ (r.after xs).size := by
  induction xs generalizing r with
  | nil => exact Nat.le_refl _
  | cons x xs ih =>
    refine Nat.le_trans ?_ (ih (r.register x).2)
    by_cases h : x ∈ r.accepted
    · rw [register_of_mem h]
    · rw [register_of_not_mem h]
      simp [size]

/-- **The accepted digests get consecutive numbers**, from the size of the registry on. -/
theorem numbers_answers (r : Registry) (xs : List Digest) :
    (r.answers xs).filterMap id = List.range' (r.size + 1) ((r.after xs).size - r.size) := by
  induction xs generalizing r with
  | nil => simp [answers, after]
  | cons x xs ih =>
    have hle := size_le_after (r.register x).2 xs
    rw [answers, after]
    by_cases h : x ∈ r.accepted
    · rw [register_of_mem h] at hle ⊢
      rw [List.filterMap_cons_none rfl, ih]
    · rw [register_of_not_mem h] at hle ⊢
      have hsize : (⟨x :: r.accepted⟩ : Registry).size = r.size + 1 := rfl
      simp only [hsize] at hle ⊢
      rw [List.filterMap_cons_some (f := id) rfl, ih, hsize, ← List.range'_succ]
      congr 1
      omega

end Registry

/-! ### Names of tests -/

namespace Text

/-- Two texts that end in a mark and a tail without the mark have the same tail. -/
theorem tail_inj {m : Char} {s s' t t' : List Char} (h : s ++ m :: t = s' ++ m :: t')
    (ht : m ∉ t) (ht' : m ∉ t') : t = t' := by
  have hread {s t : List Char} (ht : m ∉ t) :
      (s ++ m :: t).reverse.takeWhile (· != m) = t.reverse := by
    rw [List.reverse_append, List.reverse_cons, List.append_assoc]
    rw [takeWhile_append_of_head (by simp), List.takeWhile_eq_self_iff]
    intro c hc
    rw [bne_iff_ne]
    rintro rfl
    exact ht (List.mem_reverse.1 hc)
  rw [← List.reverse_inj, ← hread ht, h, hread ht']

end Text

namespace TestFunction

/-- **The name of a test tells its number**, whatever the functions are called. -/
theorem testName_inj {o : Options} {f g : String} {i j : Nat}
    (h : testName o f i = testName o g j) : i = j := by
  have hdigits {n : Nat} : '_' ∉ n.repr.toList := fun hmem =>
    absurd (Index.isDigit_of_mem_repr hmem) (by decide)
  have hname (f : String) (n : Nat) : (testName o f n).toList =
      (o.testMark ++ f).toList ++ '_' :: n.repr.toList := by
    simp [testName, String.toList_append]
  exact Index.repr_inj
    (Text.tail_inj ((hname f i).symm.trans (h ▸ hname g j)) hdigits hdigits)

end TestFunction

/-! ### Workers -/

/-- A case that someone asks to register. -/
structure Call where
  /-- The function under test. -/
  function : String
  /-- The literals of its model. -/
  values : Table String

/-- The digest of a call. -/
def Call.digest (call : Call) : Digest := caseDigest call.function call.values

/-- Workers that share a registry. -/
structure Workers (ι : Type) where
  registry : Registry := {}
  /-- The calls that each worker still has to make, in its order. -/
  pending : ι → List Call

/-- A call that was made. -/
structure Event (ι : Type) where
  worker : ι
  call : Call
  /-- The answer to the call. -/
  id? : Option Nat
  /-- The registry that the worker found. -/
  before : Registry
  /-- The registry that the worker left. -/
  after : Registry

/-- The name of the test that is made after a call. -/
def Event.testName? {ι : Type} (o : Options) (e : Event ι) : Option String :=
  e.id?.map (TestFunction.testName o e.call.function)

namespace Workers

variable {ι : Type}

theorem nodup_names (o : Options) {events : List (Event ι)}
    (h : (events.filterMap Event.id?).Nodup) : (events.filterMap (Event.testName? o)).Nodup := by
  induction events with
  | nil => exact List.nodup_nil
  | cons e events ih =>
    cases hid : e.id? with
    | none =>
      rw [List.filterMap_cons_none hid] at h
      rw [List.filterMap_cons_none (by rw [Event.testName?, hid]; rfl)]
      exact ih h
    | some id =>
      rw [List.filterMap_cons_some hid, List.nodup_cons] at h
      rw [List.filterMap_cons_some (by rw [Event.testName?, hid]; rfl), List.nodup_cons]
      refine ⟨fun hmem => h.1 ?_, ih h.2⟩
      -- a later test of this name has its number
      obtain ⟨e', he', hname⟩ := List.mem_filterMap.1 hmem
      obtain ⟨id', hid', hname⟩ := Option.map_eq_some_iff.1 hname
      rw [← TestFunction.testName_inj hname]
      exact List.mem_filterMap.2 ⟨e', he', hid'⟩

variable [DecidableEq ι]

/-- The turn of a worker: it makes its next call, in one step. Nothing happens if it has none. -/
def turn (w : ι) (s : Workers ι) : Option (Event ι × Workers ι) :=
  match s.pending w with
  | [] => none
  | call :: rest =>
    let answer := s.registry.registerCase call.function call.values
    some (⟨w, call, answer.1, s.registry, answer.2⟩,
      ⟨answer.2, Function.update s.pending w rest⟩)

/-- Workers take turns in the order of a schedule, in which each may have any number of turns. -/
def run : List ι → Workers ι → List (Event ι) × Workers ι
  | [], s => ([], s)
  | w :: schedule, s =>
    match s.turn w with
    | none => run schedule s
    | some (e, s) => (e :: (run schedule s).1, (run schedule s).2)

theorem turn_eq_some {w : ι} {s s' : Workers ι} {e : Event ι} (h : s.turn w = some (e, s')) :
    s.pending w = e.call :: s'.pending w ∧ e.worker = w ∧
      (∀ w', w' ≠ w → s'.pending w' = s.pending w') ∧ e.before = s.registry ∧
      s.registry.register e.call.digest = (e.id?, e.after) ∧ s'.registry = e.after := by
  unfold turn at h
  split at h
  · cases h
  · next call rest hpending =>
    obtain ⟨rfl, rfl⟩ := Prod.mk.inj (Option.some.inj h)
    refine ⟨?_, rfl, fun w' hne => Function.update_of_ne hne _ _, rfl, rfl, rfl⟩
    simp only [hpending, Function.update_self]

/-- What workers see is what the registry answers to the digests of their calls. -/
theorem run_eq_answers (schedule : List ι) (s : Workers ι) :
    (run schedule s).1.map Event.id? =
        s.registry.answers ((run schedule s).1.map fun e => e.call.digest) ∧
      (run schedule s).2.registry =
        s.registry.after ((run schedule s).1.map fun e => e.call.digest) := by
  induction schedule generalizing s with
  | nil => exact ⟨rfl, rfl⟩
  | cons w schedule ih =>
    cases hturn : s.turn w with
    | none =>
      rw [run, hturn]
      exact ih s
    | some next =>
      obtain ⟨e, s'⟩ := next
      obtain ⟨-, -, -, -, hregister, hregistry⟩ := turn_eq_some hturn
      obtain ⟨hids, hafter⟩ := ih s'
      rw [run, hturn]
      simp only [List.map_cons, Registry.answers, Registry.after, hregister]
      rw [hids, hafter, hregistry]
      exact ⟨rfl, rfl⟩

theorem register_of_mem_run {schedule : List ι} {s : Workers ι} {e : Event ι}
    (he : e ∈ (run schedule s).1) : e.before.register e.call.digest = (e.id?, e.after) := by
  induction schedule generalizing s with
  | nil => cases he
  | cons w schedule ih =>
    cases hturn : s.turn w with
    | none =>
      rw [run, hturn] at he
      exact ih he
    | some next =>
      obtain ⟨e', s'⟩ := next
      obtain ⟨-, -, -, hbefore, hregister, -⟩ := turn_eq_some hturn
      rw [run, hturn] at he
      rcases List.mem_cons.1 he with rfl | he
      · rw [hbefore, hregister]
      · exact ih he

/-- Each worker makes its calls in its own order, whoever comes in between. -/
theorem calls_run (schedule : List ι) (s : Workers ι) (w : ι) :
    ((run schedule s).1.filter (·.worker = w)).map Event.call ++ (run schedule s).2.pending w =
      s.pending w := by
  induction schedule generalizing s with
  | nil => rfl
  | cons w' schedule ih =>
    cases hturn : s.turn w' with
    | none =>
      rw [run, hturn]
      exact ih s
    | some next =>
      obtain ⟨e, s'⟩ := next
      obtain ⟨hpending, hworker, hothers, -, -, -⟩ := turn_eq_some hturn
      rw [run, hturn]
      by_cases hw : w' = w
      · subst hw
        rw [List.filter_cons_of_pos (by simpa using hworker), List.map_cons, List.cons_append,
          ih s', hpending]
      · rw [List.filter_cons_of_neg (by simpa [hworker] using hw), ih s',
          hothers w (Ne.symm hw)]

/-- What all workers together may rely on: some calls were made, one after the other, and left a
registry behind. -/
structure Orderly (o : Options) (pending : ι → List Call) (events : List (Event ι))
    (left : Workers ι) : Prop where
  /-- Each worker made its calls in its own order. -/
  calls (w : ι) :
    (events.filter (·.worker = w)).map Event.call ++ left.pending w = pending w
  /-- Of the calls with one digest, the first is accepted and no other. -/
  accepted (i : Nat) (hi : i < events.length) : events[i].id?.isSome = true ↔
    ∀ (j : Nat) (hj : j < i), events[j].call.digest ≠ events[i].call.digest
  /-- The accepted calls are numbered from one to the size of the registry, in their order. -/
  numbers : events.filterMap Event.id? = List.range' 1 left.registry.size
  /-- A call that is rejected changes nothing. -/
  rejected : ∀ e ∈ events, e.id? = none → e.after = e.before
  /-- No two tests have the same name. -/
  names : (events.filterMap (Event.testName? o)).Nodup

/-- **A shared registry is safe**, for any number of workers and any order of their turns. -/
theorem run_orderly (o : Options) (schedule : List ι) (pending : ι → List Call) :
    Orderly o pending (run schedule { pending }).1 (run schedule { pending }).2 := by
  obtain ⟨hids, hafter⟩ := run_eq_answers schedule ({ pending } : Workers ι)
  have hcalls := calls_run schedule ({ pending } : Workers ι)
  have hregister {e : Event ι} (he : e ∈ (run schedule ({ pending } : Workers ι)).1) :=
    register_of_mem_run he
  generalize run schedule ({ pending } : Workers ι) = outcome at *
  obtain ⟨events, left⟩ := outcome
  simp only at hids hafter hcalls hregister ⊢
  have hnumbers : events.filterMap Event.id? = List.range' 1 left.registry.size := by
    have := Registry.numbers_answers {} (events.map fun e => e.call.digest)
    rw [← hids, ← hafter, List.filterMap_map] at this
    exact this
  constructor
  case calls => exact hcalls
  case accepted =>
    intro i hi
    have hfirst := Registry.isSome_getElem_answers {} (events.map fun e => e.call.digest)
      (i := i) (by simpa using hi) (by simpa [← hids] using hi)
    simp only [← hids, List.getElem_map] at hfirst
    rw [hfirst]
    exact and_iff_right (List.not_mem_nil)
  case numbers => exact hnumbers
  case rejected =>
    intro e he hnone
    have hregister := hregister he
    have hleft := Registry.register_of_isNone (r := e.before) (x := e.call.digest)
      (by rw [hregister]; exact hnone)
    rwa [hregister] at hleft
  case names =>
    refine nodup_names o ?_
    rw [hnumbers]
    exact List.nodup_range'

end Workers

end TestSynth
