import TestSynth.Proofs.Agree
import TestSynth.Proofs.Renaming.Text
import TestSynth.Value.Parser

/-!
# Reading renamed values

The lexemes of a renamed text are the renamed lexemes of the text, at other positions.  No step of
the reader looks at anything that a renaming changes, so the renamed text is read as the renamed
value, and fails to be read if the text does.

* `Renaming.lexemes_text` : the lexemes of a renamed text.
* `Renaming.parse_text` : a renamed text is the renamed value.
-/

namespace TestSynth

open Text (isNameChar Cut Plain)

namespace Renaming

variable (ρ : Renaming)

/-! ### Tokens -/

/-- A token with its text renamed. -/
def token : Token → Token
  | .register name => .register (ρ.text name)
  | .conjured name => .conjured (ρ.text name)
  | .word text => .word (ρ.text text)
  | t => t

theorem spelling_token (t : Token) : (ρ.token t).spelling = ρ.text t.spelling := by
  cases t <;> rfl

theorem nest_token (t : Token) (nesting : Nat) : (ρ.token t).nest nesting = t.nest nesting := by
  cases t <;> rfl

theorem endsAt_token (awaited : Value.Awaited) (angles : Nat) (t : Token) :
    awaited.endsAt angles (ρ.token t) = awaited.endsAt angles t := by
  cases t <;> rfl

theorem token_eq_iff_of_isMark {t mark : Token} (h : mark.isMark = true) :
    ρ.token t = mark ↔ t = mark := by
  cases mark <;> cases h <;> cases t <;> simp [token]

theorem run_of_conjured {w : List Char} (h : Token.isNumbered "conj_$".toList w = true) :
    ρ.run w = w := by
  rcases ρ.run_cases w with ⟨r, rfl, -⟩ | ⟨-, hrun⟩
  · obtain ⟨w, hw, -⟩ := r.exists_cons
    rw [hw] at h
    cases h
  · exact hrun

theorem isNumbered_conjured_chars (s : List Char) :
    Token.isNumbered "conj_$".toList (ρ.chars s) = Token.isNumbered "conj_$".toList s := by
  have hforth (ρ : Renaming) {s : List Char} (h : Token.isNumbered "conj_$".toList s = true) :
      Token.isNumbered "conj_$".toList (ρ.chars s) = true := by
    rw [chars_run ρ fun c => Text.isNameChar_of_isNumbered (Text.forall_mem (by decide)) h,
      run_of_conjured ρ h, h]
  refine Bool.eq_iff_iff.2 ⟨fun h => ?_, hforth ρ⟩
  rw [← symm_chars ρ s]
  exact hforth ρ.symm h

theorem ofRun_chars (run rest : List Char) :
    Token.ofRun (ρ.chars run) (ρ.chars rest) =
      (ρ.token (Token.ofRun run rest).1, ρ.chars (Token.ofRun run rest).2) := by
  have hplain : Token.ofRun.plain (ρ.chars run) (ρ.chars rest) =
      (ρ.token (Token.ofRun.plain run rest).1, ρ.chars (Token.ofRun.plain run rest).2) := by
    simp only [Token.ofRun.plain, isNumbered_chars, isNumbered_conjured_chars]
    split
    · rw [token, text_ofList]
    · split <;> rw [token, text_ofList]
  have hbrace : isNameChar '{' = false := by decide
  by_cases hrest : rest.head? = some '{'
  · obtain ⟨behind, rfl⟩ := List.head?_eq_some_iff.1 hrest
    rw [chars_cons_of_sep ρ hbrace] at hplain ⊢
    simp only [Token.ofRun, ρ.chars_eq_iff_of_plain (t := "Element".toList) (by decide),
      ρ.chars_eq_iff_of_plain (t := "SymRegion".toList) (by decide)]
    split
    · rfl
    · split
      · rfl
      · exact hplain
  · rw [Token.ofRun_of_not_brace hrest, Token.ofRun_of_not_brace
      fun h => hrest ((ρ.head?_chars hbrace).1 h), hplain]

theorem isNameChar_imp_isWordChar {c : Char} (h : isNameChar c = true) :
    Token.isWordChar c = true := by
  simp only [isNameChar, Bool.and_eq_true] at h
  exact h.1.1

theorem exists_cons_chars {c : Char} {s : List Char} (hc : Token.isWordChar c = true) :
    ∃ c' s', ρ.chars (c :: s) = c' :: s' ∧ Token.isWordChar c' = true := by
  have htake := ρ.takeWhile_chars (c :: s) fun c => isNameChar_imp_isWordChar
  cases hcons : ρ.chars (c :: s) with
  | nil => cases ρ.chars_eq_nil_iff.1 hcons
  | cons c' s' =>
    refine ⟨c', s', rfl, ?_⟩
    by_contra hnot
    rw [hcons, List.takeWhile_cons_of_neg hnot, eq_comm, chars_eq_nil_iff,
      List.takeWhile_cons_of_pos hc] at htake
    cases htake

/-- **A renamed text begins with the renamed token.** -/
theorem scan?_chars {s rest : List Char} {t : Token} (h : Token.scan? s = some (t, rest)) :
    Token.scan? (ρ.chars s) = some (ρ.token t, ρ.chars rest) := by
  rcases Token.scan?_cases h with ⟨ht, rfl, hminus⟩ | ⟨c, s', rfl, hc, hrun⟩
  · have htoken : ρ.token t = t := (ρ.token_eq_iff_of_isMark ht).2 rfl
    have hseps : ∀ c ∈ t.spelling.toList, isNameChar c = false := by
      cases t <;> cases ht <;> exact Text.forall_mem (by decide)
    rw [chars_append ρ (.of_last fun c hc => hseps c (List.mem_of_getLast? hc)),
      chars_of_seps ρ hseps, htoken]
    exact Token.scan?_mark ht fun hm => fun hhead =>
      hminus hm ((ρ.head?_chars (by decide)).1 hhead)
  · obtain ⟨c', s'', hcons, hc'⟩ := ρ.exists_cons_chars hc
    have htake := ρ.takeWhile_chars (c :: s') fun c => isNameChar_imp_isWordChar
    have hdrop := ρ.dropWhile_chars (c :: s') fun c => isNameChar_imp_isWordChar
    rw [hcons] at htake hdrop ⊢
    rw [Token.scan?_of_isWordChar hc', htake, hdrop, ofRun_chars, hrun]

/-! ### Lexemes -/

/-- Lexemes and the renamed lexemes.  Positions do not matter, but no name may reach from one token
into the next. -/
inductive Lexemes : List Lexeme → List Lexeme → Prop
  | nil : Lexemes [] []
  | cons {gap : String} {t : Token} {ls ls' : List Lexeme} (start start' : Nat)
    (hgap : ∀ c ∈ gap.toList, isNameChar c = false) (hne : t.spelling.toList ≠ [])
    (hcut : ∀ m, ls.head? = some m → Cut t.spelling.toList (m.gap ++ m.text).toList)
    (h : Lexemes ls ls') : Lexemes (⟨gap, t, start⟩ :: ls) (⟨gap, ρ.token t, start'⟩ :: ls')

variable {ρ} {ls ls' : List Lexeme}

namespace Lexemes

theorem length_eq (h : ρ.Lexemes ls ls') : ls.length = ls'.length := by
  induction h with
  | nil => rfl
  | cons _ _ _ _ _ _ ih => rw [List.length_cons, List.length_cons, ih]

theorem drop (h : ρ.Lexemes ls ls') (n : Nat) : ρ.Lexemes (ls.drop n) (ls'.drop n) := by
  induction h generalizing n with
  | nil => simpa using .nil
  | cons start start' hgap hne hcut h ih =>
    cases n with
    | zero => exact .cons start start' hgap hne hcut h
    | succ n => exact ih n

theorem take (h : ρ.Lexemes ls ls') (n : Nat) : ρ.Lexemes (ls.take n) (ls'.take n) := by
  induction h generalizing n with
  | nil => simpa using .nil
  | @cons gap t ls ls' start start' hgap hne hcut h ih =>
    cases n with
    | zero => exact .nil
    | succ n =>
      refine .cons start start' hgap hne (fun m hm => hcut m ?_) (ih n)
      cases ls with
      | nil => simp at hm
      | cons l ls =>
        cases n with
        | zero => cases hm
        | succ n => exact hm

/-- The text of some lexemes, with the gap in front of the first. -/
def joined (ls : List Lexeme) : String := String.join (ls.map fun m => m.gap ++ m.text)

theorem cut_joined {t : Token}
    (hcut : ∀ m, ls.head? = some m → Cut t.spelling.toList (m.gap ++ m.text).toList)
    (h : ρ.Lexemes ls ls') : Cut t.spelling.toList (joined ls).toList := by
  cases h with
  | nil => exact .of_head (by simp [joined])
  | @cons gap t' ls ls' start start' _ hne _ h =>
    intro a b ha hb
    refine hcut _ rfl a b ha ?_
    -- the first lexeme is not empty, so the text begins as it does
    have hfirst : (gap ++ t'.spelling).toList ≠ [] := by simp [hne]
    obtain ⟨c, w, hc⟩ := List.exists_cons_of_ne_nil hfirst
    rw [joined, List.map_cons, String.join_cons, String.toList_append, List.head?_append] at hb
    simp only [Lexeme.text] at hb ⊢
    rw [hc] at hb ⊢
    exact hb

theorem joined_eq (h : ρ.Lexemes ls ls') : joined ls' = ρ.text (joined ls) := by
  induction h with
  | nil => exact (ρ.text_of_plain (by decide)).symm
  | @cons gap t ls ls' start start' hgap hne hcut h ih =>
    have hjoined (t : Token) (start : Nat) (ls : List Lexeme) :
        joined (⟨gap, t, start⟩ :: ls) = gap ++ (t.spelling ++ joined ls) := by
      rw [joined, List.map_cons, String.join_cons, String.append_assoc]
      rfl
    rw [hjoined, hjoined, ih, spelling_token,
      ρ.text_append (.of_last fun c hc => hgap c (List.mem_of_getLast? hc)),
      ρ.text_append (cut_joined hcut h), ρ.text_of_seps hgap]

theorem sourceText_eq (h : ρ.Lexemes ls ls') :
    Lexeme.sourceText ls' = ρ.text (Lexeme.sourceText ls) := by
  cases h with
  | nil => exact (ρ.text_of_plain (by decide)).symm
  | @cons gap t ls ls' start start' hgap hne hcut h =>
    show (ρ.token t).spelling ++ joined ls' = ρ.text (t.spelling ++ joined ls)
    rw [h.joined_eq, spelling_token, ρ.text_append (cut_joined hcut h)]

theorem rawText_eq (h : ρ.Lexemes ls ls') : Value.rawText ls' = ρ.text (Value.rawText ls) := by
  rw [Value.rawText, h.sourceText_eq, trimmed_text, Value.rawText]

end Lexemes

variable (ρ)

theorem isNameChar_of_isGap {c : Char} (h : Lexeme.isGap c = true) : isNameChar c = false := by
  simp only [Lexeme.isGap, Bool.or_eq_true, beq_iff_eq] at h
  rcases h with ((rfl | rfl) | rfl) | rfl <;> decide

/-- No name reaches from a token into what follows it. -/
theorem cut_of_scan? {s rest : List Char} {t : Token} (h : Token.scan? s = some (t, rest)) :
    Cut t.spelling.toList rest := by
  rcases Token.scan?_cases h with ⟨ht, -, -⟩ | ⟨c, s', rfl, hc, hrun⟩
  · refine .of_last fun c hc => ?_
    have hseps : ∀ c ∈ t.spelling.toList, isNameChar c = false := by
      cases t <;> cases ht <;> exact Text.forall_mem (by decide)
    exact hseps c (List.mem_of_getLast? hc)
  · -- a run ends where no word character follows, unless it is a marker with its brace
    have hplain (h : Token.ofRun.plain ((c :: s').takeWhile Token.isWordChar)
        ((c :: s').dropWhile Token.isWordChar) = (t, rest)) : Cut t.spelling.toList rest := by
      have hrest := Token.snd_ofRun_plain ((c :: s').takeWhile Token.isWordChar)
        ((c :: s').dropWhile Token.isWordChar)
      rw [h] at hrest
      refine .of_head fun b hb => ?_
      have hnot := List.head?_dropWhile_not Token.isWordChar (c :: s')
      rw [← hrest, hb] at hnot
      cases hname : isNameChar b with
      | false => rfl
      | true => exact absurd (isNameChar_imp_isWordChar hname) (by simpa using hnot)
    unfold Token.ofRun at hrun
    split at hrun
    · split at hrun
      · cases hrun
        exact .of_last (Text.forall_some (by decide))
      · split at hrun
        · cases hrun
          exact .of_last (Text.forall_some (by decide))
        · exact hplain hrun
    · exact hplain hrun

/-- **The lexemes of a renamed text are the renamed lexemes.** -/
theorem lexemes_chars (pos pos' : Nat) (s : List Char) :
    ρ.Lexemes (Lexeme.readFrom pos s) (Lexeme.readFrom pos' (ρ.chars s)) := by
  induction pos, s using Lexeme.readFrom_induction generalizing pos' with
  | blank pos s hs =>
    rw [Lexeme.readFrom_of_blank hs, Lexeme.readFrom_of_blank]
    · exact .nil
    · rw [dropWhile_chars_of_sep ρ s fun c => isNameChar_of_isGap, hs, chars_nil]
  | token pos s t rest hs ih =>
    have hs' : Token.scan? ((ρ.chars s).dropWhile Lexeme.isGap) =
        some (ρ.token t, ρ.chars rest) := by
      rw [dropWhile_chars_of_sep ρ s fun c => isNameChar_of_isGap]
      exact ρ.scan?_chars hs
    rw [Lexeme.readFrom_of_scan? hs, Lexeme.readFrom_of_scan? hs',
      takeWhile_chars_of_sep ρ s fun c => isNameChar_of_isGap]
    refine .cons _ _ ?_ (Token.spelling_ne_nil hs) ?_ (ih _)
    · intro c hc
      rw [String.toList_ofList] at hc
      exact isNameChar_of_isGap (List.mem_takeWhile_imp hc)
    · intro m hm a b ha hb
      refine cut_of_scan? hs a b ha ?_
      -- the next lexeme is what the rest begins with
      rcases Lexeme.blank_or_scan? rest with hblank | ⟨t', rest', hs'⟩
      · rw [Lexeme.readFrom_of_blank hblank] at hm
        cases hm
      · rw [Lexeme.readFrom_of_scan? hs'] at hm
        cases hm
        rw [Lexeme.eq_append_of_scan? hs', List.head?_append,
          ← String.toList_ofList (l := rest.takeWhile _)]
        rw [String.toList_append, Lexeme.text] at hb
        rw [hb, Option.some_or]

theorem lexemes_text (source : String) :
    ρ.Lexemes (Lexeme.ofText source) (Lexeme.ofText (ρ.text source)) := by
  rw [Lexeme.ofText, Lexeme.ofText, toList_text]
  exact ρ.lexemes_chars 0 0 _

/-! ### Indices -/

theorem digitsFrom?_of_dollar {s : List Char} (h : '$' ∈ s) (base read : Nat) :
    Index.digitsFrom? base read s = none := by
  induction s generalizing read with
  | nil => cases h
  | cons c s ih =>
    rcases List.mem_cons.1 h with rfl | h
    · rfl
    · rw [Index.digitsFrom?]
      cases Index.digit? base c with
      | none => rfl
      | some d => exact ih h _

theorem signed?_of_dollar {s : List Char} (h : '$' ∈ s) (base : Nat) :
    Index.signed? base s = none := by
  have hnatural {s : List Char} (h : '$' ∈ s) : Index.natural? base s = none := by
    rw [Index.natural?, digitsFrom?_of_dollar h, ite_self]
  unfold Index.signed?
  split
  · rw [hnatural (by simpa using h)]
    rfl
  · rw [hnatural (by simpa using h)]
    rfl
  · rw [hnatural h]
    rfl

theorem ofWord?_of_dollar {s : List Char} (h : '$' ∈ s) : Index.ofWord? s = none := by
  have hbased {s : List Char} (h : '$' ∈ s) : Index.based? s = none := by
    unfold Index.based?
    split
    · exact signed?_of_dollar (by simpa using h) 16
    · exact signed?_of_dollar (by simpa using h) 16
    · exact signed?_of_dollar h 10
  unfold Index.ofWord?
  split
  · rw [hbased (by simpa using h)]
    rfl
  · exact hbased h

theorem ofWord?_chars (s : List Char) : Index.ofWord? (ρ.chars s) = Index.ofWord? s := by
  by_cases h : Plain s
  · rw [chars_of_plain ρ h]
  · have h' : ¬Plain (ρ.chars s) := fun hplain => by
      have hs := symm_chars ρ s
      rw [chars_of_plain ρ.symm hplain] at hs
      exact h (hs ▸ hplain)
    rw [Plain, not_not] at h h'
    rw [ofWord?_of_dollar h, ofWord?_of_dollar h']

theorem firstWord?_chars (s : List Char) :
    Text.firstWord? (ρ.chars s) = (Text.firstWord? s).map ρ.chars := by
  have hword {c : Char} (h : isNameChar c = true) : (!Text.isBlank c) = true := by
    simp only [isNameChar, Bool.and_eq_true] at h
    exact h.1.2
  rw [Text.firstWord?, Text.trimStart, dropWhile_chars_of_sep ρ s fun c => isNameChar_of_isBlank,
    takeWhile_chars ρ _ fun c => hword, Text.firstWord?, Text.trimStart]
  cases hw : (s.dropWhile fun c => Text.isBlank c).takeWhile fun c => !Text.isBlank c with
  | nil => rw [chars_nil]; rfl
  | cons c w =>
    obtain ⟨c', w', hcons⟩ := List.exists_cons_of_ne_nil
      fun hnil => List.cons_ne_nil c w (ρ.chars_eq_nil_iff.1 hnil)
    rw [hcons]
    exact congrArg some hcons.symm

theorem index_text (text : String) :
    Agree (fun i j => j = i) (Index.parse text) (Index.parse (ρ.text text)) := by
  have h : (Text.firstWord? (ρ.text text).toList).bind Index.ofWord? =
      (Text.firstWord? text.toList).bind Index.ofWord? := by
    rw [toList_text, firstWord?_chars, Option.bind_map]
    exact congrArg _ (funext ρ.ofWord?_chars)
  rw [Index.parse, Index.parse, h]
  cases (Text.firstWord? text.toList).bind Index.ofWord? with
  | none => exact .error _ _
  | some i => exact .ok rfl

/-! ### Values -/

/-- A value with its symbols renamed. -/
def value : Value → Value
  | .atom text => .atom (ρ.text text)
  | .reference symbol text => .reference (ρ.text symbol) (ρ.text text)
  | .element base index type fields =>
    .element (value base) index (ρ.text type) (fields.map ρ.text)
  | .region inner fields => .region (value inner) (fields.map ρ.text)
  | .definition name type inner source =>
    .definition (ρ.text name) (ρ.text type) (value inner) (ρ.text source)

/-- A result with the rest that was not read, and the same renamed. -/
def Rest {α : Type} (f : α → α) (x y : α × List Lexeme) : Prop := y.1 = f x.1 ∧ ρ.Lexemes x.2 y.2

variable {ρ} {ls ls' : List Lexeme}

theorem takeRaw_lexemes (h : ρ.Lexemes ls ls') (awaited : Value.Awaited) (nesting : Nat) :
    (Value.takeRaw awaited nesting ls = none ∧ Value.takeRaw awaited nesting ls' = none) ∨
    ∃ n, Value.takeRaw awaited nesting ls = some (ls.take n, ls.drop n) ∧
      Value.takeRaw awaited nesting ls' = some (ls'.take n, ls'.drop n) := by
  induction h generalizing nesting with
  | nil => exact .inl ⟨rfl, rfl⟩
  | @cons gap t ls ls' start start' _ _ _ _ ih =>
    simp only [Value.takeRaw, endsAt_token, nest_token]
    split
    · exact .inr ⟨0, rfl, rfl⟩
    · rcases ih (t.nest nesting) with ⟨hnone, hnone'⟩ | ⟨n, hn, hn'⟩
      · rw [hnone, hnone']
        exact .inl ⟨rfl, rfl⟩
      · rw [hn, hn']
        exact .inr ⟨n + 1, rfl, rfl⟩

theorem raw_lexemes (h : ρ.Lexemes ls ls') (opener : String) (opened opened' : Nat)
    (awaited : Value.Awaited) :
    Agree (ρ.Rest ρ.text) (Value.raw opener opened awaited ls)
      (Value.raw opener opened' awaited ls') := by
  rw [Value.raw, Value.raw]
  rcases takeRaw_lexemes h awaited 0 with ⟨hnone, hnone'⟩ | ⟨n, hn, hn'⟩
  · rw [hnone, hnone']
    exact .error _ _
  · rw [hn, hn']
    exact .ok ⟨(h.take n).rawText_eq, h.drop n⟩

theorem expect_lexemes (h : ρ.Lexemes ls ls') (size size' : Nat) (opener : String)
    (opened opened' : Nat) {mark : Token} (hmark : mark.isMark = true) :
    Agree ρ.Lexemes (Value.expect size opener opened mark ls)
      (Value.expect size' opener opened' mark ls') := by
  cases h with
  | nil => exact .error _ _
  | cons start start' _ _ _ h =>
    simp only [Value.expect, token_eq_iff_of_isMark ρ hmark]
    split
    · exact .ok h
    · exact .error _ _

theorem fieldNames_lexemes (h : ρ.Lexemes ls ls') (size size' : Nat) :
    Agree (ρ.Rest (List.map ρ.text)) (Value.fieldNames size ls) (Value.fieldNames size' ls') := by
  induction hn : ls.length using Nat.strongRecOn generalizing ls ls' with
  | ind n ih =>
    cases h with
    | nil => exact .ok ⟨rfl, .nil⟩
    | @cons gap t ls ls' start start' hgap hne hcut h =>
      by_cases ht : t = .dot
      · subst ht
        cases h with
        | nil => exact .error _ _
        | @cons gap' t' ls ls' i i' _ _ _ h =>
          cases t' with
          | word name =>
            have hlt : ls.length < n := by
              simp only [List.length_cons] at hn
              omega
            refine (ih ls.length hlt h rfl).bind ?_
            rintro ⟨names, rest⟩ ⟨names', rest'⟩ ⟨hnames, hrest⟩
            refine .ok ⟨?_, hrest⟩
            rw [List.map_cons, ← hnames]
          | _ => exact .error _ _
      · have ht' : ρ.token t ≠ .dot := fun h => ht ((ρ.token_eq_iff_of_isMark rfl).1 h)
        rw [Value.fieldNames_of_not_dot (by simpa using ht),
          Value.fieldNames_of_not_dot (by simpa using ht')]
        exact .ok ⟨rfl, .cons start start' hgap hne hcut h⟩

variable (ρ) in
/-- How far an atom was read, with its tokens renamed. -/
def atomState (st : Value.AtomState) : Value.AtomState :=
  { st with items := st.items.map ρ.token }

theorem push_token (st : Value.AtomState) (t : Token) :
    (ρ.atomState st).push (ρ.token t) = ρ.atomState (st.push t) := by
  obtain ⟨nesting, angles, items⟩ := st
  -- an angle bracket opens behind a register, and registers stay registers
  cases nesting with
  | zero =>
    cases t
    case openAngle =>
      cases items with
      | nil => rfl
      | cons t items => cases t <;> rfl
    all_goals rfl
  | succ nesting =>
    cases t
    case openAngle =>
      rcases items with - | ⟨t, - | ⟨t', items⟩⟩
      · rfl
      · rfl
      · cases t' <;> rfl
    all_goals rfl

theorem takeAtom_lexemes (h : ρ.Lexemes ls ls') (awaited : Value.Awaited) (st : Value.AtomState) :
    ∃ n st', Value.takeAtom awaited st ls = (ls.take n, st', ls.drop n) ∧
      Value.takeAtom awaited (ρ.atomState st) ls' =
        (ls'.take n, ρ.atomState st', ls'.drop n) := by
  induction h generalizing st with
  | nil => exact ⟨0, st, rfl, rfl⟩
  | @cons gap t ls ls' start start' _ _ _ _ ih =>
    simp only [Value.takeAtom, endsAt_token, push_token]
    have hnesting : (ρ.atomState st).nesting = st.nesting := rfl
    have hangles : (ρ.atomState st).angles = st.angles := rfl
    rw [hnesting, hangles]
    split
    · exact ⟨0, st, rfl, rfl⟩
    · obtain ⟨n, st', hn, hn'⟩ := ih (st.push t)
      rw [hn, hn']
      exact ⟨n + 1, st', rfl, rfl⟩

theorem atomValue_lexemes (h : ρ.Lexemes ls ls') (size size' : Nat) (awaited : Value.Awaited) :
    Agree (ρ.Rest ρ.value) (Value.atomValue size awaited ls)
      (Value.atomValue size' awaited ls') := by
  obtain ⟨n, st, hn, hn'⟩ := takeAtom_lexemes h awaited {}
  have hempty : ρ.atomState {} = {} := rfl
  rw [hempty] at hn'
  rw [Value.atomValue, hn, Value.atomValue, hn']
  have htext := (h.take n).rawText_eq
  have hisEmpty (text : String) : (ρ.text text).isEmpty = text.isEmpty := by
    rw [Bool.eq_iff_iff, String.isEmpty_iff, String.isEmpty_iff]
    exact ρ.text_eq_iff_of_plain (by decide)
  have hnesting : (ρ.atomState st).nesting = st.nesting := rfl
  simp only [htext, hisEmpty, hnesting]
  by_cases hopen : 0 < st.nesting
  · rw [if_pos hopen, if_pos hopen]
    exact .error _ _
  · rw [if_neg hopen, if_neg hopen]
    by_cases hempty : (Value.rawText (ls.take n)).isEmpty = true
    · rw [if_pos hempty, if_pos hempty]
      exact .error _ _
    · rw [if_neg hempty, if_neg hempty]
      refine .ok ⟨?_, h.drop n⟩
      -- one or two tokens decide whether the atom refers to a symbol
      obtain ⟨nesting, angles, items⟩ := st
      rcases items with - | ⟨t, - | ⟨t', - | ⟨t'', items⟩⟩⟩
      · rfl
      · cases t <;> rfl
      · cases t <;> cases t' <;> rfl
      · cases t <;> cases t' <;> rfl

/-- Readers that read a value and its renaming in the same way. -/
def SameReader (ρ : Renaming) (inner inner' : Value.Reader) : Prop :=
  ∀ awaited ls ls', ρ.Lexemes ls ls' →
    Agree (ρ.Rest ρ.value) (inner awaited ls) (inner' awaited ls')

theorem elementTail_lexemes (h : ρ.Lexemes ls ls') (size size' opened opened' : Nat) :
    Agree (fun x y => y.1 = x.1 ∧ y.2.1 = ρ.text x.2.1 ∧ ρ.Lexemes x.2.2 y.2.2)
      (Value.elementTail size opened ls) (Value.elementTail size' opened' ls') := by
  refine (expect_lexemes h size size' _ opened opened' rfl).bind fun ls ls' h => ?_
  refine (raw_lexemes h _ opened opened' _).bind ?_
  rintro ⟨index, ls⟩ ⟨index', ls'⟩ ⟨rfl, h⟩
  refine (expect_lexemes h size size' _ opened opened' rfl).bind fun ls ls' h => ?_
  refine (raw_lexemes h _ opened opened' _).bind ?_
  rintro ⟨type, ls⟩ ⟨type', ls'⟩ ⟨rfl, h⟩
  refine (expect_lexemes h size size' _ opened opened' rfl).bind fun ls ls' h => ?_
  refine (ρ.index_text index).bind fun i j hij => ?_
  exact .ok ⟨hij, rfl, h⟩

variable {inner inner' : Value.Reader}

theorem elementValue_lexemes (hinner : SameReader ρ inner inner') (h : ρ.Lexemes ls ls')
    (size size' opened opened' : Nat) :
    Agree (ρ.Rest ρ.value) (Value.elementValue inner size opened ls)
      (Value.elementValue inner' size' opened' ls') := by
  refine (hinner _ _ _ h).bind ?_
  rintro ⟨base, ls⟩ ⟨base', ls'⟩ ⟨rfl, h⟩
  refine ((elementTail_lexemes h size size' opened opened').mapError _ _).bind ?_
  rintro ⟨index, type, ls⟩ ⟨_, _, ls'⟩ ⟨hindex, htype, h⟩
  dsimp only at hindex htype h
  subst hindex htype
  refine ((fieldNames_lexemes h size size').mapError _ _).bind ?_
  rintro ⟨fields, ls⟩ ⟨fields', ls'⟩ ⟨rfl, h⟩
  exact .ok ⟨rfl, h⟩

theorem regionValue_lexemes (hinner : SameReader ρ inner inner') (h : ρ.Lexemes ls ls')
    (size size' opened opened' : Nat) :
    Agree (ρ.Rest ρ.value) (Value.regionValue inner size opened ls)
      (Value.regionValue inner' size' opened' ls') := by
  refine (hinner _ _ _ h).bind ?_
  rintro ⟨v, ls⟩ ⟨v', ls'⟩ ⟨rfl, h⟩
  refine ((expect_lexemes h size size' _ opened opened' rfl).mapError _ _).bind fun ls ls' h => ?_
  refine ((fieldNames_lexemes h size size').mapError _ _).bind ?_
  rintro ⟨fields, ls⟩ ⟨fields', ls'⟩ ⟨rfl, h⟩
  exact .ok ⟨rfl, h⟩

theorem definitionValue_lexemes (hinner : SameReader ρ inner inner') (h : ρ.Lexemes ls ls')
    (size size' opened opened' : Nat) (name : String) :
    Agree (ρ.Rest ρ.value) (Value.definitionValue inner size opened name ls)
      (Value.definitionValue inner' size' opened' (ρ.text name) ls') := by
  refine ((raw_lexemes h _ opened opened' _).mapError _ _).bind ?_
  rintro ⟨type, ls⟩ ⟨type', ls'⟩ ⟨rfl, h⟩
  refine ((expect_lexemes h size size' _ opened opened' rfl).mapError _ _).bind fun ls ls' h => ?_
  refine (hinner _ _ _ h).bind ?_
  rintro ⟨v, rest⟩ ⟨v', rest'⟩ ⟨rfl, hrest⟩
  have hsource := (h.take (ls.length - rest.length)).sourceText_eq
  refine ((expect_lexemes hrest size size' _ opened opened' rfl).mapError _ _).bind
    fun rest rest' hrest' => ?_
  refine .ok ⟨?_, hrest'⟩
  simp only [value]
  rw [← hsource, h.length_eq, hrest.length_eq]

/-- **Renamed lexemes are read as the renamed value.** -/
theorem read_lexemes (size size' limit depth : Nat) :
    SameReader ρ (Value.read size limit depth) (Value.read size' limit depth) := by
  induction depth with
  | zero => exact fun _ _ _ _ => .error _ _
  | succ depth ih =>
    intro awaited ls ls' h
    have hatom := atomValue_lexemes h size size' awaited
    cases h with
    | nil => exact .error _ _
    | @cons gap t ls ls' start start' _ _ _ h =>
      cases t with
      | elementOpen =>
        simp only [Value.read, token]
        exact elementValue_lexemes ih h size size' start start'
      | regionOpen =>
        simp only [Value.read, token]
        exact regionValue_lexemes ih h size size' start start'
      | register name =>
        -- a symbol is defined only if an angle bracket follows
        cases h with
        | nil =>
          simp only [Value.read, token]
          exact hatom.mapError _ _
        | @cons gap' t' ls ls' i i' _ _ _ h =>
          cases t' with
          | openAngle =>
            simp only [Value.read, token]
            exact definitionValue_lexemes ih h size size' start start' name
          | _ =>
            simp only [Value.read, token]
            exact hatom.mapError _ _
      | _ =>
        simp only [Value.read, token]
        exact hatom.mapError _ _

/-- **A renamed text is read as the renamed value.** -/
theorem parse_text (ρ : Renaming) (limit : Nat) (source : String) :
    Agree (fun v v' => v' = ρ.value v) (Value.parse limit source)
      (Value.parse limit (ρ.text source)) := by
  refine (read_lexemes _ _ limit limit _ _ _ (ρ.lexemes_text source)).bind ?_
  rintro ⟨v, rest⟩ ⟨v', rest'⟩ ⟨hv, hrest⟩
  cases hrest with
  | nil => exact .ok hv
  | cons => exact .error _ _

end Renaming

end TestSynth
