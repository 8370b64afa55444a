import TestSynth.Proofs.Layers
import TestSynth.Proofs.Trails

/-!
# Steps of the cursor

The steps that read delimiters, raw text, atoms and fields answer what is read from the lexemes, and
each of them leaves a trail.  The number of the open groups is lowered only where a group is open,
because a bracket that closes one ends the text outside of all groups.  What is cut out begins where
the cursor stood, and ends with the last lexeme that was passed since, if there is one.

* `OnePass.nest?_eq` : groups are closed only where some are open.
* `OnePass.readsAs_cutFrom` : what is cut out is the text of the lexemes that were passed.
* `OnePass.readsAs_raw`, `OnePass.readsAs_passAtom` : raw text and atoms.
* `OnePass.readsAs_elementTail`, `OnePass.readsAs_passFields` : what stands behind a value.
-/

namespace TestSynth

namespace OnePass

open Lexeme (IsBoundary ofText sourceText)
open Value (Awaited AtomState fieldNames takeRaw takeAtom)

variable {source : String} {s s' : State}

/-! ### Delimiters -/

section Expect

variable {token : Token} {opener : String} {opened : Nat}

theorem expectToken_apply (token : Token) (s : State) :
    expectToken source token s =
      (match s.token? source 0 with
      | some t => if t = token then modify State.advance else unexpected source token.kind
      | none => fail .unexpectedEnd : Action Unit) s := rfl

theorem expectToken_of_rest_nil (h : s.rest source = []) (token : Token) :
    expectToken source token s = (.error (.failed .unexpectedEnd), s) := by
  rw [expectToken_apply, State.token?_of_rest_nil h]
  rfl

theorem expectToken_of_rest_cons {l : Lexeme} {ls : List Lexeme} (h : s.rest source = l :: ls)
    (token : Token) :
    expectToken source token s =
      (if l.token = token then modify State.advance else unexpected source token.kind :
        Action Unit) s := by
  rw [expectToken_apply, State.token?_of_rest_cons h]

theorem readsAs_expectToken {l : Lexeme} {ls : List Lexeme} (h : s.rest source = l :: ls)
    (ht : l.token = token) :
    ReadsAs source (expectToken source token) s (.ok ((), ls), s.tables) := by
  refine (readsAs_advance h).of_eq ?_
  rw [expectToken_of_rest_cons h, if_pos ht]

theorem readsAs_expectClose (token : Token) (opener : String) (opened : Nat) (s : State) :
    ReadsAs source (expectClose source token opener opened) s
      ((Value.expect source.utf8ByteSize opener opened token (s.rest source)).map (((), ·)),
        s.tables) := by
  cases hrest : s.rest source with
  | nil =>
    refine ReadsAs.of_eq (x := fail (.unclosed opener opened)) (.fail _ s) ?_
    rw [expectClose, expectToken_of_rest_nil hrest]
    rfl
  | cons l ls =>
    rw [Value.expect]
    by_cases ht : l.token = token
    · rw [if_pos ht]
      refine (readsAs_advance hrest).of_eq ?_
      rw [expectClose, expectToken_of_rest_cons hrest, if_pos ht]
      rfl
    · rw [if_neg ht, ← hrest]
      refine ReadsAs.of_eq (x := unexpected source token.kind) (readsAs_unexpected _ s) ?_
      rw [expectClose, expectToken_of_rest_cons hrest, if_neg ht]
      rfl

end Expect

/-! ### Slices -/

theorem State.isBoundary_position (s : State) : IsBoundary source (s.position source) := by
  rw [position]
  cases h : (ofText source)[s.cursor]? with
  | none => exact .inr rfl
  | some l => exact .inl ⟨l, List.mem_of_getElem? h, .inl rfl⟩

/-- The lexemes that have been passed end before the next one starts. -/
theorem State.passedEnd_le_position (s : State) : s.passedEnd source ≤ s.position source := by
  rw [passedEnd]
  split
  · exact Nat.zero_le _
  · next i hi =>
    cases hl : (ofText source)[i]? with
    | none => exact Nat.zero_le _
    | some l =>
      rw [position, hi]
      cases hm : (ofText source)[i + 1]? with
      | none =>
        have hboundary : IsBoundary source l.stop := .inl ⟨l, List.mem_of_getElem? hl, .inr rfl⟩
        exact hboundary.le
      | some m =>
        obtain ⟨hi', rfl⟩ := List.getElem?_eq_some_iff.1 hl
        obtain ⟨hi'', rfl⟩ := List.getElem?_eq_some_iff.1 hm
        exact List.pairwise_iff_getElem.1 (Lexeme.pairwise_stop_le_start 0 source.toList) i (i + 1)
          hi' hi'' (Nat.lt_succ_self i)

theorem Advances.passedEnd_eq (h : Advances source s s') {last : Lexeme}
    (hlast : ((s.rest source).take (s'.cursor - s.cursor)).getLast? = some last) :
    s'.passedEnd source = last.stop ∧ last ∈ ofText source := by
  obtain ⟨es, -, htrail⟩ := h.trail
  have hlt : s.cursor < s'.cursor := by
    by_contra hle
    rw [show s'.cursor - s.cursor = 0 by omega] at hlast
    cases hlast
  have hlength := htrail.le_length hlt
  obtain ⟨k, hk⟩ : ∃ k, s'.cursor = k + 1 := ⟨s'.cursor - 1, by omega⟩
  have hget : (ofText source)[k]? = some last := by
    rw [List.getLast?_eq_getElem?, List.length_take, State.rest, List.length_drop,
      List.getElem?_take_of_lt (by omega), List.getElem?_drop] at hlast
    rw [← hlast]
    congr 1
    omega
  refine ⟨?_, List.mem_of_getElem? hget⟩
  rw [State.passedEnd, hk]
  show (ofText source)[k]?.elim 0 Lexeme.stop = _
  rw [hget]
  rfl

/-- The text of some lexemes up to those that are left of them. -/
def textUpTo (ls rest : List Lexeme) : String := sourceText (ls.take (ls.length - rest.length))

theorem textUpTo_append (taken rest : List Lexeme) :
    textUpTo (taken ++ rest) rest = sourceText taken := by
  rw [textUpTo, List.length_append, Nat.add_sub_cancel, List.take_left]

theorem Advances.textUpTo_eq (h : Advances source s s') :
    textUpTo (s.rest source) (s'.rest source) =
      sourceText ((s.rest source).take (s'.cursor - s.cursor)) := by
  rw [textUpTo, h.rest_eq, List.length_drop]
  congr 1
  rw [List.take_eq_take_iff]
  omega

/-- Between where the cursor stood and where the last lexeme ends that it passed, there is the text
of the lexemes that it passed. -/
theorem Advances.slice?_eq (h : Advances source s s') :
    IsBoundary source (max (s'.passedEnd source) (s.position source)) ∧
    Text.slice? source.toList (s.position source)
        (max (s'.passedEnd source) (s.position source)) =
      some (sourceText ((s.rest source).take (s'.cursor - s.cursor))).toList := by
  have hle := h.cursor_le
  cases hrun : (s.rest source).take (s'.cursor - s.cursor) with
  | nil =>
    -- no lexeme was passed
    have hcursor : s'.cursor = s.cursor := by
      rcases List.take_eq_nil_iff.1 hrun with hzero | hnil
      · omega
      · by_contra hne
        obtain ⟨es, -, htrail⟩ := h.trail
        have := htrail.le_length (by omega)
        have := List.drop_eq_nil_iff.1 hnil
        omega
    have hposition : s'.position source = s.position source := by
      rw [State.position, State.position, hcursor]
    have hend : s'.passedEnd source ≤ s.position source :=
      hposition ▸ s'.passedEnd_le_position
    rw [max_eq_right hend]
    exact ⟨s.isBoundary_position, s.isBoundary_position.slice?_self⟩
  | cons l run =>
    obtain ⟨last, hlast⟩ : ∃ last, (l :: run).getLast? = some last := ⟨_, List.getLast?_cons⟩
    obtain ⟨hend, hmem⟩ := h.passedEnd_eq (by rw [hrun]; exact hlast)
    have hrest : s.rest source = l :: run ++ s'.rest source := by
      rw [h.rest_eq, ← hrun, List.take_append_drop]
    have htext : ofText source = (ofText source).take s.cursor ++ (l :: run ++ s'.rest source) := by
      rw [← hrest, State.rest, List.take_append_drop]
    have hslice := Lexeme.slice?_sourceText htext hlast
    have hposition : s.position source = l.start := by
      rw [State.position_eq, hrest]
      rfl
    rw [hend, hposition, max_eq_left (Text.le_of_slice? hslice)]
    exact ⟨.inl ⟨last, hmem, .inr rfl⟩, hslice⟩

theorem cut_apply (start stop : Nat) (s : State) :
    cut source start stop s =
      (match Text.slice? source.toList start stop with
      | some text => pure (String.ofList text)
      | none => throw (.outOfText start stop) : Action String) (s.note (.cut start stop)) := rfl

/-- **What is cut out** from where the cursor stood is the text of the lexemes that it passed. -/
theorem readsAs_cutFrom (h : Advances source s s') :
    ReadsAs source (cutFrom source (s.position source)) s'
      (.ok (textUpTo (s.rest source) (s'.rest source), s'.rest source), s'.tables) := by
  obtain ⟨hboundary, hslice⟩ := h.slice?_eq
  rw [h.textUpTo_eq]
  generalize hstop : max (s'.passedEnd source) (s.position source) = stop at *
  have hadvances : Advances source s' (s'.note (.cut (s.position source) stop)) :=
    ⟨rfl, [.cut (s.position source) stop], rfl,
      .cut (Text.le_of_slice? hslice) s.isBoundary_position hboundary (.done _)⟩
  refine .ok ⟨?_, hadvances⟩ rfl rfl
  show cut source (s.position source) (max (s'.passedEnd source) (s.position source)) s' = _
  rw [hstop, cut_apply, hslice]
  simp only [String.ofList_toList]
  rfl

/-! ### Raw text -/

/-- **Groups are closed only where some are open**: a bracket that closes one ends a raw text
outside of all groups. -/
theorem nest?_eq {awaited : Awaited} {nesting angles : Nat} {t : Token}
    (h : (nesting = 0 && awaited.endsAt angles t) = false) :
    t.nest? nesting = some (t.nest nesting) ∧ (t.closesGroup = true → 0 < nesting) := by
  have hclose (hcloses : t.closesGroup = true) : 0 < nesting := by
    obtain ⟨k, hk⟩ := Option.isSome_iff_exists.1 (t.closesGroup_eq ▸ hcloses)
    rw [Awaited.endsAt_of_closes? hk, Bool.and_true, decide_eq_false_iff_not] at h
    exact Nat.pos_of_ne_zero h
  refine ⟨?_, hclose⟩
  rw [Token.nest?, Token.nest]
  split
  · rfl
  · split
    · next hcloses => rw [if_neg (hclose hcloses).ne']
    · rfl

section Raw

variable {opener : String} {opened : Nat} {awaited : Awaited}

theorem passRaw_of_rest_nil (h : s.rest source = []) (nesting : Nat) :
    passRaw source opener opened awaited nesting s =
      (answer (.error (.unclosed opener opened)), s) := by
  have htoken := State.token?_of_rest_nil h 0
  rw [passRaw]
  split
  · rfl
  · next heq => rw [htoken] at heq; cases heq

theorem passRaw_of_rest_cons {l : Lexeme} {ls : List Lexeme} (h : s.rest source = l :: ls)
    (nesting : Nat) :
    passRaw source opener opened awaited nesting s =
      if nesting = 0 && awaited.endsAt 0 l.token then (.ok (), s)
      else
        match l.token.nest? nesting with
        | none => (.error .underflow, s.note (.closed nesting))
        | some nesting' =>
          passRaw source opener opened awaited nesting' (s.take l.token nesting) := by
  have htoken := State.token?_of_rest_cons h
  rw [passRaw]
  split
  · next heq => rw [htoken] at heq; cases heq
  · next heq =>
    rw [htoken] at heq
    cases heq
    rfl

theorem readsAs_passRaw (nesting : Nat) (s : State) :
    ReadsAs source (passRaw source opener opened awaited nesting) s
      (match takeRaw awaited nesting (s.rest source) with
        | some (_, rest) => .ok ((), rest)
        | none => .error (.unclosed opener opened), s.tables) := by
  induction hls : s.rest source generalizing s nesting with
  | nil => exact .error ⟨passRaw_of_rest_nil hls nesting, .refl s⟩ rfl
  | cons l ls ih =>
    rw [takeRaw]
    by_cases hends : (nesting = 0 && awaited.endsAt 0 l.token) = true
    · rw [if_pos hends]
      refine .ok ⟨?_, .refl s⟩ hls rfl
      rw [passRaw_of_rest_cons hls, if_pos hends]
      rfl
    · obtain ⟨hnest, hclose⟩ := nest?_eq (Bool.eq_false_iff.2 hends)
      have htail := ih (l.token.nest nesting) (s.take l.token nesting) (s.rest_take_cons hls _)
      rw [s.tables_take] at htail
      have hadvances := Advances.take (State.cursor_lt_of_rest_cons hls) hclose
      have hstep : passRaw source opener opened awaited nesting s =
          passRaw source opener opened awaited (l.token.nest nesting) (s.take l.token nesting) := by
        rw [passRaw_of_rest_cons hls, if_neg hends, hnest]
      rw [if_neg hends]
      cases htake : takeRaw awaited (l.token.nest nesting) ls with
      | none =>
        rw [htake] at htail
        exact htail.after hadvances hstep
      | some taken =>
        rw [htake] at htail
        exact htail.after hadvances hstep

/-- Raw text is cut out as it is taken from the lexemes. -/
theorem readsAs_raw (opener : String) (opened : Nat) (awaited : Awaited) (s : State) :
    ReadsAs source (raw source opener opened awaited) s
      (Value.raw opener opened awaited (s.rest source), s.tables) := by
  have hcut (s' : State) (hadvances : Advances source s s') :
      ReadsAs source (cutFrom source (s.position source) >>= fun t => pure (Text.trimmed t)) s'
        (.ok (Text.trimmed (textUpTo (s.rest source) (s'.rest source)), s'.rest source),
          s'.tables) :=
    (readsAs_cutFrom hadvances).bind
      (g := fun t rest tables => (.ok (Text.trimmed t, rest), tables))
      fun t s'' _ _ => .pure (Text.trimmed t) s''
  have hraw : ReadsAs source (raw source opener opened awaited) s _ :=
    ((readsAs_passRaw 0 s).bind
      (g := fun _ rest tables =>
        (.ok (Text.trimmed (textUpTo (s.rest source) rest), rest), tables))
      fun _ s' _ hadvances => hcut s' hadvances).of_eq rfl
  rw [Value.raw]
  cases htake : takeRaw awaited 0 (s.rest source) with
  | none =>
    rw [htake] at hraw
    exact hraw
  | some taken =>
    obtain ⟨taken, rest⟩ := taken
    show ReadsAs source _ s (.ok (Text.trimmed (sourceText taken), rest), s.tables)
    rw [htake, (Value.takeRaw_layout htake).1] at hraw
    rw [← textUpTo_append taken rest]
    exact hraw

end Raw

/-! ### The rest of an element -/

theorem ReadsAs.bind_expectClose {α β : Type} {token : Token} {opener : String} {opened : Nat}
    {f : Action α} {g : List Lexeme → Except ParseError β} {φ : β → α × List Lexeme}
    (hf : ∀ s', s'.tables = s.tables → ReadsAs source f s' ((g (s'.rest source)).map φ, s.tables)) :
    ReadsAs source (expectClose source token opener opened >>= fun _ => f) s
      ((Value.expect source.utf8ByteSize opener opened token (s.rest source) >>= g).map φ,
        s.tables) := by
  have hread := (readsAs_expectClose token opener opened s).bind
    (g := fun _ rest _ => ((g rest).map φ, s.tables))
    fun _ s' heq _ => hf s' (Prod.mk.inj heq).2.symm
  cases hexpect : Value.expect source.utf8ByteSize opener opened token (s.rest source) with
  | error e =>
    rw [hexpect] at hread
    exact hread
  | ok rest =>
    rw [hexpect] at hread
    exact hread

theorem ReadsAs.bind_raw {α β : Type} {opener : String} {opened : Nat} {awaited : Awaited}
    {f : String → Action α} {g : String × List Lexeme → Except ParseError β}
    {φ : β → α × List Lexeme}
    (hf : ∀ text s', s'.tables = s.tables →
      ReadsAs source (f text) s' ((g (text, s'.rest source)).map φ, s.tables)) :
    ReadsAs source (raw source opener opened awaited >>= f) s
      ((Value.raw opener opened awaited (s.rest source) >>= g).map φ, s.tables) := by
  have hread := (readsAs_raw opener opened awaited s).bind
    (g := fun text rest _ => ((g (text, rest)).map φ, s.tables))
    fun text s' heq _ => hf text s' (Prod.mk.inj heq).2.symm
  cases hraw : Value.raw opener opened awaited (s.rest source) with
  | error e =>
    rw [hraw] at hread
    exact hread
  | ok taken =>
    rw [hraw] at hread
    exact hread

/-- The index and the type of an element are read one after the other. -/
theorem readsAs_elementTail (opened : Nat) (s : State) :
    ReadsAs source (elementTail source opened) s
      ((Value.elementTail source.utf8ByteSize opened (s.rest source)).map
        fun (index, type, rest) => ((index, type), rest), s.tables) := by
  refine .bind_expectClose fun s₁ h₁ => ?_
  rw [← h₁]
  refine .bind_raw fun index s₂ h₂ => ?_
  rw [← h₂]
  refine .bind_expectClose fun s₃ h₃ => ?_
  rw [← h₃]
  refine .bind_raw fun type s₄ h₄ => ?_
  rw [← h₄]
  refine .bind_expectClose fun s₅ h₅ => ?_
  rw [← h₅]
  cases Index.parse index with
  | error e => exact .fail e s₅
  | ok i => exact .pure (i, type) s₅

/-! ### Fields -/

section Fields

variable {d : Declarations} {expr : Expr} {viaPointer : Bool} {record : Option String}

theorem passFields_of_not_dot (h : s.token? source 0 ≠ some .dot) :
    passFields source d expr viaPointer record s = (.ok expr, s) := by
  rw [passFields]
  split
  · next heq => exact absurd heq h
  · rfl

theorem passFields_of_dot (h : s.token? source 0 = some .dot) :
    passFields source d expr viaPointer record s =
      match s.advance.token? source 0 with
      | some (.word field) =>
        let type := record.bind fun record => d.fieldType? record field
        passFields source d (.field expr field viaPointer) (type.any d.isPointerType) type
          s.advance.advance
      | some _ => unexpected source "field name" s.advance.advance
      | none => unexpected source "field name" s.advance := by
  rw [passFields]
  split
  · rfl
  · next hnot => exact absurd h hnot

/-- Fields are passed as their names are read. -/
theorem readsAs_passFields (expr : Expr) (viaPointer : Bool) (record : Option String) (s : State) :
    ReadsAs source (passFields source d expr viaPointer record) s
      ((fieldNames source.utf8ByteSize (s.rest source)).map
        fun (fields, rest) => (d.takeFields expr viaPointer record fields, rest), s.tables) := by
  generalize hls : s.rest source = ls
  fun_induction fieldNames source.utf8ByteSize ls generalizing s expr viaPointer record with
  | case1 gap start gap' name start' ls ih =>
    have hrest : s.advance.rest source = ⟨gap', .word name, start'⟩ :: ls :=
      State.rest_advance_cons hls
    have hrest' : s.advance.advance.rest source = ls := State.rest_advance_cons hrest
    have hadvances := (Advances.advance (State.cursor_lt_of_rest_cons hls)).trans
      (Advances.advance (State.cursor_lt_of_rest_cons hrest))
    have htail := ReadsAs.after (y := passFields source d expr viaPointer record)
      (ih _ _ _ s.advance.advance hrest') hadvances (by
        rw [passFields_of_dot (State.token?_of_rest_cons hls), State.token?_of_rest_cons hrest])
    cases hnames : fieldNames source.utf8ByteSize ls with
    | error e =>
      rw [hnames] at htail
      exact htail
    | ok names =>
      rw [hnames] at htail
      exact htail
  | case2 gap start ls hnot =>
    have hrest : s.advance.rest source = ls := State.rest_advance_cons hls
    have hadvances := Advances.advance (State.cursor_lt_of_rest_cons hls)
    -- the dot is passed, and so is the token behind it if there is one
    cases ls with
    | nil =>
      have hread : ReadsAs source (unexpected source "field name" : Action Expr) s.advance _ :=
        readsAs_unexpected "field name" s.advance
      rw [hrest] at hread
      refine hread.after hadvances ?_
      rw [passFields_of_dot (State.token?_of_rest_cons hls), State.token?_of_rest_nil hrest]
    | cons l ls =>
      have hrest' : s.advance.advance.rest source = ls := State.rest_advance_cons hrest
      have hread :
          ReadsAs source (unexpected source "field name" : Action Expr) s.advance.advance _ :=
        readsAs_unexpected "field name" s.advance.advance
      rw [hrest'] at hread
      refine hread.after (hadvances.trans (.advance (State.cursor_lt_of_rest_cons hrest))) ?_
      rw [passFields_of_dot (State.token?_of_rest_cons hls), State.token?_of_rest_cons hrest]
      obtain ⟨gap', t, start'⟩ := l
      cases t with
      | word name => exact absurd rfl (hnot gap' name start' ls)
      | _ => rfl
  | case3 ls _ hdot =>
    refine .ok ⟨passFields_of_not_dot ?_, .refl s⟩ hls rfl
    cases ls with
    | nil =>
      rw [State.token?_of_rest_nil hls]
      rintro ⟨⟩
    | cons l ls =>
      obtain ⟨gap, t, start⟩ := l
      rw [State.token?_of_rest_cons hls]
      rintro ⟨⟩
      exact hdot gap start ls rfl

end Fields

/-! ### Atoms -/

section Atoms

variable {awaited : Awaited}

theorem passAtom_of_rest_nil (h : s.rest source = []) (st : AtomState) :
    passAtom source awaited st s = (.ok st, s) := by
  have htoken := State.token?_of_rest_nil h 0
  rw [passAtom]
  split
  · rfl
  · next heq => rw [htoken] at heq; cases heq

theorem passAtom_of_rest_cons {l : Lexeme} {ls : List Lexeme} (h : s.rest source = l :: ls)
    (st : AtomState) :
    passAtom source awaited st s =
      if st.nesting = 0 && awaited.endsAt st.angles l.token then (.ok st, s)
      else
        match l.token.nest? st.nesting with
        | none => (.error .underflow, s.note (.closed st.nesting))
        | some nesting =>
          passAtom source awaited { st.push l.token with nesting } (s.take l.token st.nesting) := by
  have htoken := State.token?_of_rest_cons h
  rw [passAtom]
  split
  · next heq => rw [htoken] at heq; cases heq
  · next heq =>
    rw [htoken] at heq
    cases heq
    rfl

/-- An atom is passed as it is taken from the lexemes. -/
theorem readsAs_passAtom (st : AtomState) (s : State) :
    ReadsAs source (passAtom source awaited st) s
      (.ok (takeAtom awaited st (s.rest source)).2, s.tables) := by
  induction hls : s.rest source generalizing s st with
  | nil => exact .ok ⟨passAtom_of_rest_nil hls st, .refl s⟩ hls rfl
  | cons l ls ih =>
    rw [takeAtom]
    by_cases hends : (st.nesting = 0 && awaited.endsAt st.angles l.token) = true
    · rw [if_pos hends]
      refine .ok ⟨?_, .refl s⟩ hls rfl
      rw [passAtom_of_rest_cons hls, if_pos hends]
      rfl
    · obtain ⟨hnest, hclose⟩ := nest?_eq (Bool.eq_false_iff.2 hends)
      have htail := ih (st.push l.token) (s.take l.token st.nesting) (s.rest_take_cons hls _)
      rw [s.tables_take] at htail
      have hadvances := Advances.take (State.cursor_lt_of_rest_cons hls) hclose
      rw [if_neg hends]
      refine htail.after hadvances ?_
      rw [passAtom_of_rest_cons hls, if_neg hends, hnest]
      rfl

end Atoms

end OnePass

end TestSynth
