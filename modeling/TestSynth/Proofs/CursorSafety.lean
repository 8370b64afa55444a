import TestSynth.Proofs.LayerBinding

/-!
# Safety of the cursor

Reading and binding in one pass never halts but with an answer, and the answer is that of reading
first and binding afterwards.  Values are nested as deep as the limit allows, each in one call, and
the parameters that a value refers to are resolved on the way in the same manner.

* `OnePass.readsAs_expr` : one pass answers what is read and bound, and leaves a trail.
* `OnePass.follows_resolve` : so it does for the parameters that are resolved on the way.
* `OnePass.expr_safe` : no group is closed that is not open, each slice lies between boundaries of
  the text, the cursor moves on, and the depth is restored.
-/

namespace TestSynth

namespace OnePass

open Lexeme (IsBoundary ofText)
open Value (Awaited part?)

variable {source : String} {d : Declarations} {resolve : String → Tables → Outcome Unit}
  {s s' : State} {t : Tables}

/-! ### Values -/

section Values

variable {resolver : Resolver} {limit : Nat}

/-- What the next tokens announce is read and bound as the layer that they begin. -/
theorem readsAs_layer (hresolver : Follows resolver resolve) {inner : Awaited → Action Bound}
    {depth : Nat} (hinner : ReadsInside source d resolve s.depth inner
      (Value.read source.utf8ByteSize limit depth)) (awaited : Awaited) :
    ReadsAs source (layer source d resolver inner awaited) s
      (bindPart d resolve
        (Value.read source.utf8ByteSize limit (depth + 1) awaited (s.rest source)) s.tables) := by
  rw [layer]
  refine .of_get ?_
  rcases Value.layer_cases (s.rest source) with hnil | ⟨gap, start, ls, helement⟩ |
    ⟨gap, start, ls, hregion⟩ | ⟨gap, name, start, gap', start', ls, hdefinition⟩ | hatom
  · rw [State.token?_of_rest_nil hnil, hnil]
    exact .fail _ s
  · rw [State.token?_of_rest_cons helement, helement]
    exact readsAs_element hinner helement
  · rw [State.token?_of_rest_cons hregion, hregion]
    exact readsAs_region hinner hregion
  · have hangle : s.token? source 1 = some .openAngle := by
      rw [State.token?_eq, hdefinition]
      rfl
    rw [State.token?_of_rest_cons hdefinition, hangle, hdefinition]
    exact readsAs_definition hinner hdefinition
  · rw [Value.read_of_startsAtom hatom]
    obtain ⟨t, ht, helement, hregion, hdefinition⟩ := hatom
    rw [State.token?_eq 0, ← List.head?_eq_getElem?, ht]
    cases t with
    | elementOpen => exact absurd rfl helement
    | regionOpen => exact absurd rfl hregion
    | register name =>
      have hangle : s.token? source 1 ≠ some .openAngle := by
        rw [State.token?_eq]
        exact hdefinition rfl
      simp only [if_neg hangle]
      exact readsAs_atom hresolver awaited s
    | _ => exact readsAs_atom hresolver awaited s

/-- A value that is nested is read with the depth raised by one, and behind it the depth is lowered
again. -/
theorem readsAs_nested {value : Action Bound} {o : Outcome (Bound × List Lexeme)}
    (hdepth : s.depth < limit) (h : ReadsAs source value { s with depth := s.depth + 1 } o) :
    ReadsAs source (nested limit value) s o := by
  have heq {r : Except ParseError Bound} {s' : State}
      (hgives : Gives source value { s with depth := s.depth + 1 } r s') :
      Gives source (nested limit value) s r { s' with depth := s'.depth - 1 } := by
    refine ⟨?_, Nat.sub_eq_of_eq_add hgives.advances.depth_eq, hgives.advances.trail⟩
    rw [nested, if_pos hdepth, hgives.eq]
  cases h with
  | error hgives htables => exact .error (heq hgives) htables
  | ok hgives hrest htables => exact .ok (heq hgives) hrest htables

theorem nested_of_le (hdepth : limit ≤ s.depth) (value : Action Bound) :
    nested limit value s = (.error (.failed (.tooDeep s.depth limit)), s) := by
  rw [nested, if_neg (Nat.not_lt_of_le hdepth)]
  rfl

/-- **One pass gives what reading and binding give**, if there is a call for each value that may
still be nested, and one more. -/
theorem readsAs_exprWithin (hresolver : Follows resolver resolve) (calls : Nat) (awaited : Awaited)
    (s : State) (hdepth : s.depth ≤ limit) (hcalls : limit < calls + s.depth) :
    ReadsAs source (exprWithin source d limit resolver calls awaited) s
      (bindPart d resolve
        (Value.read source.utf8ByteSize limit (limit - s.depth) awaited (s.rest source))
        s.tables) := by
  induction calls generalizing awaited s with
  | zero => omega
  | succ calls ih =>
    rcases Nat.eq_or_lt_of_le hdepth with heq | hlt
    · rw [heq, Nat.sub_self, Value.read]
      refine (ReadsAs.fail (.tooDeep limit limit) s).of_eq ?_
      rw [exprWithin, nested_of_le (Nat.le_of_eq heq.symm), heq]
      rfl
    · have hinner : ReadsInside source d resolve (s.depth + 1)
          (exprWithin source d limit resolver calls)
          (Value.read source.utf8ByteSize limit (limit - (s.depth + 1))) := by
        intro awaited s' hs'
        rw [← hs']
        exact ih awaited s' (by omega) (by omega)
      rw [show limit - s.depth = limit - (s.depth + 1) + 1 by omega]
      exact readsAs_nested hlt (readsAs_layer hresolver hinner awaited)

theorem exists_of_bindPart {reading : Except Value.Failure (Value × List Lexeme)} {b : Bound}
    (h : (bindPart d resolve reading t).1.map Prod.fst = .ok b) :
    ∃ v rest, reading = .ok (v, rest) ∧ (bindPart d resolve reading t).1 = .ok (b, rest) := by
  match reading with
  | .error failure =>
    obtain ⟨e, t', hfailed⟩ := bindPart_error d resolve failure t
    rw [hfailed] at h
    cases h
  | .ok (v, rest) =>
    refine ⟨v, rest, rfl, ?_⟩
    rw [bindPart] at h ⊢
    generalize (part? _).elim _ _ = outcome at h ⊢
    obtain ⟨_ | _, t'⟩ := outcome
    · cases h
    · cases h
      rfl

/-- There are as many calls. -/
theorem readsAs_expr (hresolver : Follows resolver resolve) (awaited : Awaited)
    (hdepth : s.depth ≤ limit) :
    ReadsAs source (expr source d limit resolver awaited) s
      (bindPart d resolve
        (Value.read source.utf8ByteSize limit (limit - s.depth) awaited (s.rest source))
        s.tables) :=
  (readsAs_exprWithin hresolver (limit - s.depth + 1) awaited s hdepth (by omega)).of_eq rfl

/-! ### Texts and parameters -/

/-- What is read behind the value that a text should be. -/
def endOfText (size : Nat) (v : Value) : List Lexeme → Except Value.Failure (Value × List Lexeme)
  | [] => .ok (v, [])
  | rest => .error ⟨some v, Value.unexpected size "end of expression" rest⟩

theorem parse_eq (limit : Nat) (source : String) :
    Value.parse limit source =
      (Value.read source.utf8ByteSize limit limit .nothing (ofText source) >>=
        fun (v, rest) => endOfText source.utf8ByteSize v rest).map Prod.fst := by
  rw [Value.parse]
  cases Value.read source.utf8ByteSize limit limit .nothing (ofText source) with
  | error failure => rfl
  | ok taken =>
    obtain ⟨v, rest⟩ := taken
    cases rest <;> rfl

theorem bindPart_endOfText (size : Nat) (x : Except Value.Failure (Value × List Lexeme))
    (t : Tables) :
    bindPart d resolve (x >>= fun (v, rest) => endOfText size v rest) t =
      andThen (bindPart d resolve x t) fun b rest t => (match rest with
        | [] => .ok (b, [])
        | rest => .error (Value.unexpected size "end of expression" rest), t) := by
  refine bindPart_bind (f := fun (v, rest) => endOfText size v rest) (fun v rest => ?_)
    (fun v rest t => ?_) t
  · cases rest <;> exact ⟨v, rfl, rfl⟩
  · cases rest <;> rfl

theorem readsAs_parse (hresolver : Follows resolver resolve) (t : Tables) :
    ReadsAs source (parse source d limit resolver) (.start t)
      (bindPart d resolve
        (Value.read source.utf8ByteSize limit limit .nothing (ofText source) >>=
          fun (v, rest) => endOfText source.utf8ByteSize v rest) t) := by
  rw [bindPart_endOfText, parse]
  refine (readsAs_expr hresolver .nothing (Nat.zero_le limit)).bind fun b s' _ _ => .of_get ?_
  cases hrest : s'.rest source with
  | nil =>
    rw [State.token?_of_rest_nil hrest]
    exact .ok ⟨rfl, .refl s'⟩ hrest rfl
  | cons l ls =>
    have hread : ReadsAs source (unexpected source "end of expression" : Action Bound) s' _ :=
      readsAs_unexpected "end of expression" s'
    rw [hrest] at hread
    rw [State.token?_of_rest_cons hrest]
    exact hread.of_eq rfl

theorem gives_parse (hresolver : Follows resolver resolve) (source : String) (t : Tables) :
    ∃ s', Gives source (parse source d limit resolver) (.start t)
        (d.bindReading resolve (Value.parse limit source) t).1 s' ∧
      s'.tables = (d.bindReading resolve (Value.parse limit source) t).2 := by
  obtain ⟨s', hgives, htables, -⟩ := (readsAs_parse hresolver t).exists_gives
  rw [parse_eq, bindReading_map_fst]
  exact ⟨s', hgives, htables⟩

theorem resolve_of_settled {pending : List String} {name : String}
    (h : name ∈ pending → t.isRegistered name = true ∨ name ∉ t.parameters) :
    OnePass.resolve d limit pending name t = (.ok (), t) := by
  rw [OnePass.resolve]
  by_cases hmem : name ∈ pending
  · rw [dif_pos hmem]
    rcases h hmem with hreg | hnone
    · rw [hreg]
    · rw [Std.ExtTreeMap.getElem?_eq_none hnone]
      cases t.isRegistered name <;> rfl
  · rw [dif_neg hmem]

theorem resolve_of_text {pending : List String} {name text : String} (hmem : name ∈ pending)
    (hreg : t.isRegistered name = false) (htext : t.parameters[name]? = some text) :
    OnePass.resolve d limit pending name t =
      match parse text d limit (OnePass.resolve d limit (pending.erase name)) (.start t) with
      | (.error e, s) => (.error e, s.tables)
      | (.ok b, s) => (.ok (), Declarations.registerParameter name text b s.tables) := by
  obtain ⟨r, s, hparse⟩ : ∃ r s, parse text d limit
      (OnePass.resolve d limit (pending.erase name)) (.start t) = (r, s) := ⟨_, _, rfl⟩
  rw [hparse]
  cases r with
  | error e =>
    rw [OnePass.resolve, dif_pos hmem, hreg, htext]
    simp only [hparse]
  | ok b =>
    rw [OnePass.resolve, dif_pos hmem, hreg, htext]
    simp only [hparse]

/-- **Parameters that are resolved on the way** are resolved as before a value is bound. -/
theorem follows_resolve (d : Declarations) (limit : Nat) (pending : List String) :
    Follows (OnePass.resolve d limit pending) (d.resolve limit pending) := by
  induction pending using Declarations.pending_induction with
  | step pending ih =>
    intro name t
    rcases d.resolve_cases limit pending name t with ⟨hsettled, heq⟩ |
      ⟨text, hmem, hreg, htext, heq⟩
    · rw [heq, resolve_of_settled hsettled]
      rfl
    · obtain ⟨s', hgives, htables⟩ := gives_parse (ih name hmem) text t
      rw [heq, resolve_of_text hmem hreg htext, hgives.eq]
      generalize d.bindReading _ _ t = outcome at htables ⊢
      obtain ⟨_ | _, t'⟩ := outcome
      · obtain rfl : s'.tables = t' := htables
        rfl
      · obtain rfl : s'.tables = t' := htables
        rfl

end Values

/-! ### Safety -/

/-- **A value is read and bound safely**, whatever the text, the place of the cursor, the delimiter
that is awaited and the depth, and whether there is a value or not.  There is an answer.  Groups are
closed only where some are open, and what is cut out lies in the text, between the ends of tokens or
the end of the text.  The lexemes are passed one after the other, at least one of them for a value,
and the depth is the same as before.  The answer and the tables are those of reading the value first
and binding it afterwards, for a whole text those of `Declarations.bindText`. -/
theorem expr_safe (source : String) (d : Declarations) (limit : Nat) :
    (∀ (pending : List String) (awaited : Awaited) (s : State),
      ∃ (r : Except ParseError Bound) (s' : State) (events : List Event),
        expr source d limit (OnePass.resolve d limit pending) awaited s = (answer r, s') ∧
        s'.events = s.events ++ events ∧
        (∀ nesting, .closed nesting ∈ events → 0 < nesting) ∧
        (∀ start stop, .cut start stop ∈ events →
          start ≤ stop ∧ stop ≤ source.utf8ByteSize ∧
            IsBoundary source start ∧ IsBoundary source stop) ∧
        s.cursor ≤ s'.cursor ∧
        events.filterMap Event.passed? = List.range' s.cursor (s'.cursor - s.cursor) ∧
        (∀ b, r = .ok b → s.cursor < s'.cursor) ∧
        s'.depth = s.depth ∧
        (s.depth ≤ limit → (r, s'.tables) = d.bindReading (d.resolve limit pending)
          ((Value.read source.utf8ByteSize limit (limit - s.depth) awaited (s.rest source)).map
            Prod.fst) s.tables)) ∧
    ∀ t : Tables, ∃ s',
      parse source d limit (OnePass.resolve d limit t.parameters.keys) (.start t) =
        (answer (d.bindText limit source t).1, s') ∧ s'.tables = (d.bindText limit source t).2 := by
  refine ⟨fun pending awaited s => ?_, fun t => ?_⟩
  · rcases Nat.lt_or_ge limit s.depth with hdeep | hdepth
    · -- the depth is checked before anything is read
      have hexpr : expr source d limit (OnePass.resolve d limit pending) awaited s =
          (answer (.error (.tooDeep s.depth limit)), s) := nested_of_le (Nat.le_of_lt hdeep) _
      refine ⟨_, s, [], hexpr, (List.append_nil _).symm, nofun, nofun, Nat.le_refl _, ?_, nofun,
        rfl, fun hdepth => absurd hdeep (Nat.not_lt_of_le hdepth)⟩
      rw [Nat.sub_self]
      rfl
    · obtain ⟨s', hgives, htables, hrest⟩ :=
        (readsAs_expr (follows_resolve d limit pending) awaited hdepth).exists_gives
      obtain ⟨events, hevents, htrail⟩ := hgives.advances.trail
      refine ⟨_, s', events, hgives.eq, hevents, fun nesting => htrail.closed_pos,
        fun start stop hcut => ?_, htrail.le, htrail.filterMap_passed?, fun b hb => ?_,
        hgives.advances.depth_eq, fun _ => ?_⟩
      · obtain ⟨hle, hstart, hstop⟩ := htrail.cut_within hcut
        exact ⟨hle, hstop.le, hstart, hstop⟩
      · obtain ⟨v, rest, hread, hbound⟩ := exists_of_bindPart hb
        refine hgives.advances.cursor_lt ?_
        rw [hrest _ rest hbound]
        exact Value.length_lt_of_read hread
      · rw [bindReading_map_fst, htables]
  · obtain ⟨s', hgives, htables⟩ := gives_parse (follows_resolve d limit t.parameters.keys) source t
    exact ⟨s', hgives.eq, htables⟩

end OnePass

end TestSynth
