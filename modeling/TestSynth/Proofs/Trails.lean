import TestSynth.Proofs.Nesting
import TestSynth.Proofs.OnePass

/-!
# Trails of a reading

What happens while a text is read in one pass is a trail: the cursor passes one lexeme after the
other, groups are closed only where some are open, and texts are cut out between boundaries.  Steps
of the reading that leave such trails, and answer what is read from the list of the lexemes, are put
together.  So neither an underflow nor a missing slice can end a reading that is made of them.

* `OnePass.Trail` : what happens between two places of the cursor, if all goes well.
* `OnePass.Gives` : an action answers without any other halt, and leaves a trail.
* `OnePass.ReadsAs` : it answers what is read from the lexemes behind the cursor.
* `OnePass.ReadsAs.bind` : actions that follow each other read what follows each other.
-/

namespace TestSynth

namespace OnePass

open Lexeme (IsBoundary ofText)
open Value (tokens)

/-! ### The lexemes behind the cursor -/

/-- The lexemes that are still to be read. -/
def State.rest (source : String) (s : State) : List Lexeme := (ofText source).drop s.cursor

variable {source : String} {s s' s'' : State}

namespace State

theorem token?_eq (n : Nat) : s.token? source n = (tokens (s.rest source))[n]? := by
  rw [token?, rest, tokens, List.getElem?_map, List.getElem?_drop]

theorem token?_of_rest_nil (h : s.rest source = []) (n : Nat) : s.token? source n = none := by
  rw [token?_eq, h]
  rfl

theorem token?_of_rest_cons {l : Lexeme} {ls : List Lexeme} (h : s.rest source = l :: ls) :
    s.token? source 0 = some l.token := by
  rw [token?_eq, h]
  rfl

theorem position_eq : s.position source = Lexeme.position source.utf8ByteSize (s.rest source) := by
  rw [position, rest, ← List.head?_drop]
  cases (ofText source).drop s.cursor <;> rfl

theorem found_eq : s.found source = Lexeme.found (s.rest source) := by
  rw [found, rest, ← List.head?_drop]
  cases (ofText source).drop s.cursor <;> rfl

theorem rest_of_cursor_eq {l : Lexeme} {ls : List Lexeme} (h : s.rest source = l :: ls)
    (hcursor : s'.cursor = s.cursor + 1) : s'.rest source = ls := by
  rw [rest, hcursor, ← List.tail_drop, ← rest, h, List.tail_cons]

theorem rest_advance_cons {l : Lexeme} {ls : List Lexeme} (h : s.rest source = l :: ls) :
    s.advance.rest source = ls := rest_of_cursor_eq h rfl

theorem rest_take_cons {l : Lexeme} {ls : List Lexeme} (h : s.rest source = l :: ls)
    (nesting : Nat) : (s.take l.token nesting).rest source = ls :=
  rest_of_cursor_eq h (s.cursor_take l.token nesting)

theorem tables_take (t : Token) (nesting : Nat) : (s.take t nesting).tables = s.tables := by
  rw [take]
  split <;> rfl

theorem cursor_lt_of_rest_cons {l : Lexeme} {ls : List Lexeme} (h : s.rest source = l :: ls) :
    s.cursor < (ofText source).length := cursor_lt (token?_of_rest_cons h)

end State

/-! ### Trails -/

/-- What may happen while the cursor goes from one place to another. -/
inductive Trail (source : String) : Nat → List Event → Nat → Prop
  | done (i : Nat) : Trail source i [] i
  | passed {i j : Nat} {es : List Event} (h : i < (ofText source).length)
      (rest : Trail source (i + 1) es j) : Trail source i (.passed i :: es) j
  | closed {i j nesting : Nat} {es : List Event} (h : 0 < nesting) (rest : Trail source i es j) :
      Trail source i (.closed nesting :: es) j
  | cut {i j start stop : Nat} {es : List Event} (h : start ≤ stop)
      (hstart : IsBoundary source start) (hstop : IsBoundary source stop)
      (rest : Trail source i es j) : Trail source i (.cut start stop :: es) j

namespace Trail

variable {i j k : Nat} {es es' : List Event}

theorem append (h : Trail source i es j) (h' : Trail source j es' k) :
    Trail source i (es ++ es') k := by
  induction h with
  | done => exact h'
  | passed hi _ ih => exact .passed hi (ih h')
  | closed hn _ ih => exact .closed hn (ih h')
  | cut hle hstart hstop _ ih => exact .cut hle hstart hstop (ih h')

theorem le (h : Trail source i es j) : i ≤ j := by
  induction h with
  | done => exact Nat.le_refl _
  | passed _ _ ih => omega
  | closed _ _ ih => exact ih
  | cut _ _ _ _ ih => exact ih

theorem le_length (h : Trail source i es j) (hlt : i < j) : j ≤ (ofText source).length := by
  induction h with
  | done => exact absurd hlt (Nat.lt_irrefl _)
  | @passed i j _ hi rest ih =>
    rcases Nat.eq_or_lt_of_le rest.le with rfl | hij
    · exact hi
    · exact ih hij
  | closed _ _ ih => exact ih hlt
  | cut _ _ _ _ ih => exact ih hlt

theorem closed_pos (h : Trail source i es j) {n : Nat} (hn : .closed n ∈ es) : 0 < n := by
  induction h with
  | done => cases hn
  | passed _ _ ih =>
    cases hn with
    | tail _ hn => exact ih hn
  | closed hpos _ ih =>
    cases hn with
    | head => exact hpos
    | tail _ hn => exact ih hn
  | cut _ _ _ _ ih =>
    cases hn with
    | tail _ hn => exact ih hn

theorem cut_within (h : Trail source i es j) {start stop : Nat} (hcut : .cut start stop ∈ es) :
    start ≤ stop ∧ IsBoundary source start ∧ IsBoundary source stop := by
  induction h with
  | done => cases hcut
  | passed _ _ ih =>
    cases hcut with
    | tail _ hcut => exact ih hcut
  | closed _ _ ih =>
    cases hcut with
    | tail _ hcut => exact ih hcut
  | cut hle hstart hstop _ ih =>
    cases hcut with
    | head => exact ⟨hle, hstart, hstop⟩
    | tail _ hcut => exact ih hcut

end Trail

/-- The index of the lexeme that is passed, if one is. -/
def Event.passed? : Event → Option Nat
  | .passed index => some index
  | _ => none

/-- **The cursor passes one lexeme after the other**, none of them twice. -/
theorem Trail.filterMap_passed? {i j : Nat} {es : List Event} (h : Trail source i es j) :
    es.filterMap Event.passed? = List.range' i (j - i) := by
  induction h with
  | done i => rw [Nat.sub_self]; rfl
  | @passed i j es _ rest ih =>
    have hle := rest.le
    rw [show j - i = j - (i + 1) + 1 by omega, List.range'_succ,
      List.filterMap_cons_some (show Event.passed? (.passed i) = some i from rfl), ih]
  | closed _ _ ih => exact ih
  | cut _ _ _ _ ih => exact ih

/-- From one state to the other the cursor left a trail, and as many values are being read. -/
structure Advances (source : String) (s s' : State) : Prop where
  depth_eq : s'.depth = s.depth
  trail : ∃ es, s'.events = s.events ++ es ∧ Trail source s.cursor es s'.cursor

namespace Advances

theorem refl (s : State) : Advances source s s := ⟨rfl, [], (List.append_nil _).symm, .done _⟩

theorem trans (h : Advances source s s') (h' : Advances source s' s'') : Advances source s s'' := by
  obtain ⟨es, hes, htrail⟩ := h.trail
  obtain ⟨es', hes', htrail'⟩ := h'.trail
  refine ⟨h'.depth_eq.trans h.depth_eq, es ++ es', ?_, htrail.append htrail'⟩
  rw [hes', hes, List.append_assoc]

theorem cursor_le (h : Advances source s s') : s.cursor ≤ s'.cursor :=
  let ⟨_, _, htrail⟩ := h.trail
  htrail.le

theorem rest_eq (h : Advances source s s') :
    s'.rest source = (s.rest source).drop (s'.cursor - s.cursor) := by
  rw [State.rest, State.rest, List.drop_drop, Nat.add_sub_cancel' h.cursor_le]

theorem cursor_lt (h : Advances source s s')
    (hlt : (s'.rest source).length < (s.rest source).length) : s.cursor < s'.cursor := by
  refine Nat.lt_of_le_of_ne h.cursor_le fun heq => Nat.ne_of_lt hlt ?_
  rw [State.rest, State.rest, heq]

theorem advance (h : s.cursor < (ofText source).length) : Advances source s s.advance :=
  ⟨rfl, [.passed s.cursor], rfl, .passed h (.done _)⟩

/-- A lexeme is passed that closes no group unless one is open. -/
theorem take {t : Token} {nesting : Nat} (h : s.cursor < (ofText source).length)
    (hclose : t.closesGroup = true → 0 < nesting) : Advances source s (s.take t nesting) := by
  rw [State.take]
  split
  · next hcloses =>
    exact ⟨rfl, [.closed nesting, .passed s.cursor], List.append_assoc _ _ _,
      .closed (hclose hcloses) (.passed h (.done _))⟩
  · exact advance h

theorem learn (s : State) (tables : Tables) : Advances source s { s with tables } :=
  ⟨rfl, [], (List.append_nil _).symm, .done _⟩

end Advances

/-! ### Answers -/

/-- The action answers `r` in the state `s'`, and the cursor left a trail. -/
structure Gives {α : Type} (source : String) (x : Action α) (s : State) (r : Except ParseError α)
    (s' : State) : Prop where
  eq : x s = (answer r, s')
  advances : Advances source s s'

/-- The action answers what is read from the lexemes behind the cursor, with the tables
afterwards. -/
inductive ReadsAs {α : Type} (source : String) (x : Action α) (s : State) :
    Outcome (α × List Lexeme) → Prop
  | error {e : ParseError} {s' : State} {t : Tables} (hgives : Gives source x s (.error e) s')
      (htables : s'.tables = t) : ReadsAs source x s (.error e, t)
  | ok {a : α} {s' : State} {rest : List Lexeme} {t : Tables} (hgives : Gives source x s (.ok a) s')
      (hrest : s'.rest source = rest) (htables : s'.tables = t) :
    ReadsAs source x s (.ok (a, rest), t)

section Bind

variable {α β : Type} {x : Action α} {f : α → Action β} {a : α} {e : ParseError}
  {r : Except ParseError β}

theorem bind_apply (x : Action α) (f : α → Action β) (s : State) :
    (x >>= f) s = ExceptT.bindCont f (x s).1 (x s).2 := rfl

theorem Gives.bind_ok (hx : Gives source x s (.ok a) s') (hf : Gives source (f a) s' r s'') :
    Gives source (x >>= f) s r s'' := by
  refine ⟨?_, hx.advances.trans hf.advances⟩
  rw [bind_apply, hx.eq]
  exact hf.eq

theorem Gives.bind_error (hx : Gives source x s (.error e) s') :
    Gives source (x >>= f) s (.error e) s' := by
  refine ⟨?_, hx.advances⟩
  rw [bind_apply, hx.eq]
  rfl

/-- What is read first goes before what is read behind it. -/
def andThen (o : Outcome (α × List Lexeme))
    (g : α → List Lexeme → Tables → Outcome (β × List Lexeme)) : Outcome (β × List Lexeme) :=
  match o with
  | (.error e, t) => (.error e, t)
  | (.ok (a, rest), t) => g a rest t

/-- **Actions that follow each other** read what follows each other. -/
theorem ReadsAs.bind {o : Outcome (α × List Lexeme)}
    {g : α → List Lexeme → Tables → Outcome (β × List Lexeme)} (hx : ReadsAs source x s o)
    (hf : ∀ a s', o = (.ok (a, s'.rest source), s'.tables) → Advances source s s' →
      ReadsAs source (f a) s' (g a (s'.rest source) s'.tables)) :
    ReadsAs source (x >>= f) s (andThen o g) := by
  cases hx with
  | error hgives htables => exact .error hgives.bind_error htables
  | @ok a s' rest t hgives hrest htables =>
    subst hrest htables
    have hy := hf a s' rfl hgives.advances
    show ReadsAs source (x >>= f) s (g a (s'.rest source) s'.tables)
    generalize g a (s'.rest source) s'.tables = o at hy
    cases hy with
    | error hgives' htables => exact .error (hgives.bind_ok hgives') htables
    | ok hgives' hrest htables => exact .ok (hgives.bind_ok hgives') hrest htables

/-- Behind a step that succeeds the reading goes on where the step ended. -/
theorem ReadsAs.bind_ok {rest : List Lexeme} {t : Tables} {o : Outcome (β × List Lexeme)}
    (hx : ReadsAs source x s (.ok (a, rest), t))
    (hf : ∀ s', s'.rest source = rest → s'.tables = t → Advances source s s' →
      ReadsAs source (f a) s' o) : ReadsAs source (x >>= f) s o :=
  hx.bind (g := fun _ _ _ => o) fun a' s' heq hadvances => by
    cases heq
    exact hf s' rfl rfl hadvances

theorem ReadsAs.after {y : Action α} {o : Outcome (α × List Lexeme)} (h : ReadsAs source x s' o)
    (hadvances : Advances source s s') (heq : y s = x s') : ReadsAs source y s o := by
  cases h with
  | error hgives htables =>
    exact .error ⟨heq.trans hgives.eq, hadvances.trans hgives.advances⟩ htables
  | ok hgives hrest htables =>
    exact .ok ⟨heq.trans hgives.eq, hadvances.trans hgives.advances⟩ hrest htables

theorem ReadsAs.of_eq {y : Action α} {o : Outcome (α × List Lexeme)} (h : ReadsAs source x s o)
    (heq : y s = x s) : ReadsAs source y s o := h.after (.refl s) heq

theorem ReadsAs.of_get {f : State → Action α} {o : Outcome (α × List Lexeme)}
    (h : ReadsAs source (f s) s o) : ReadsAs source (get >>= f) s o := h.of_eq rfl

theorem ReadsAs.pure (a : α) (s : State) :
    ReadsAs source (pure a) s (.ok (a, s.rest source), s.tables) :=
  .ok ⟨rfl, .refl s⟩ rfl rfl

theorem ReadsAs.fail (e : ParseError) (s : State) :
    ReadsAs source (fail e : Action α) s (.error e, s.tables) :=
  .error ⟨rfl, .refl s⟩ rfl

theorem readsAs_unexpected (expected : String) (s : State) :
    ReadsAs source (unexpected source expected : Action α) s
      (.error (Value.unexpected source.utf8ByteSize expected (s.rest source)), s.tables) := by
  rw [Value.unexpected, ← State.position_eq, ← State.found_eq]
  exact .error ⟨rfl, .refl s⟩ rfl

theorem readsAs_advance {l : Lexeme} {ls : List Lexeme} (h : s.rest source = l :: ls) :
    ReadsAs source (modify State.advance) s (.ok ((), ls), s.tables) :=
  .ok ⟨rfl, .advance (State.cursor_lt_of_rest_cons h)⟩ (State.rest_advance_cons h) rfl

theorem readsAs_next {l : Lexeme} {ls : List Lexeme} (h : s.rest source = l :: ls) :
    ReadsAs source (next source) s (.ok (some l.token, ls), s.tables) := by
  have heq : next source s = (do
      if (s.token? source 0).isSome then modify State.advance
      return s.token? source 0 : Action (Option Token)) s := rfl
  rw [State.token?_of_rest_cons h] at heq
  exact .ok ⟨heq, .advance (State.cursor_lt_of_rest_cons h)⟩ (State.rest_advance_cons h) rfl

/-- What a reading answers is an answer of the action, with the tables afterwards. -/
theorem ReadsAs.exists_gives {o : Outcome (α × List Lexeme)} (h : ReadsAs source x s o) :
    ∃ s', Gives source x s (o.1.map Prod.fst) s' ∧ s'.tables = o.2 ∧
      ∀ a rest, o.1 = .ok (a, rest) → s'.rest source = rest := by
  cases h with
  | error hgives htables => exact ⟨_, hgives, htables, nofun⟩
  | ok hgives hrest htables =>
    refine ⟨_, hgives, htables, fun a rest heq => ?_⟩
    cases heq
    exact hrest

end Bind

end OnePass

end TestSynth
