import TestSynth.Proofs.Nesting
import TestSynth.Text.Alphanumeric
import Mathlib.Data.List.Basic

/-!
# What an access in C applies to

An index or a field link behind a text is applied to all of it only if the text is what the grammar
of C calls a postfix expression: a name, a literal or a group, with any indices, calls and fields
behind it.  Of any other expression it takes the last operand alone.

The grammar is stated on texts as they stand, with the brackets and the quotes in them.  Which
groups are types is left open: behind a type in parentheses, a group is not called but cast.

* `Cursor.run` : reading over brackets and quotes; `Enclosed` : texts that close what they open.
* `IsPostfix` : postfix expressions.
* `isPostfix_index_iff`, `isPostfix_field_iff` : an access can be taken off behind them.
-/

namespace TestSynth.Postfix

/-! ### Brackets and quotes -/

/-- The kind of bracket that a character opens. -/
def opens? : Char → Option Bracket
  | '(' => some .paren
  | '[' => some .square
  | '{' => some .brace
  | _ => none

/-- The kind of bracket that a character closes. -/
def closes? : Char → Option Bracket
  | ')' => some .paren
  | ']' => some .square
  | '}' => some .brace
  | _ => none

/-- A character that begins and ends a literal. -/
def isQuote (c : Char) : Bool := c == '"' || c == '\''

/-- The brackets that are open behind a character, the innermost one first. A bracket must be closed
by one of its own kind. -/
def nest (pending : List Bracket) (c : Char) : Option (List Bracket) :=
  match opens? c, closes? c with
  | some k, _ => some (k :: pending)
  | none, some k =>
    match pending with
    | [] => none
    | k' :: pending => if k' = k then some pending else none
  | none, none => some pending

theorem nest_append {pending pending' : List Bracket} {c : Char}
    (h : nest pending c = some pending') (outer : List Bracket) :
    nest (pending ++ outer) c = some (pending' ++ outer) := by
  unfold nest at h ⊢
  split at h
  · cases h
    rfl
  · cases pending with
    | nil => cases h
    | cons k pending =>
      rw [Option.ite_none_right_eq_some] at h
      obtain ⟨rfl, h⟩ := h
      cases h
      simp
  · cases h
    rfl

/-- Where a reader stands in a text. -/
structure Cursor where
  /-- The brackets that are open, the innermost one first. -/
  pending : List Bracket := []
  /-- The quote of the literal it is in, and whether a backslash stands in front. -/
  literal : Option (Char × Bool) := none
  deriving DecidableEq

namespace Cursor

/-- Reads on by one character. -/
def step (p : Cursor) (c : Char) : Option Cursor :=
  match p.literal with
  | some (quote, true) => some ⟨p.pending, some (quote, false)⟩
  | some (quote, false) =>
    if c = '\\' then some ⟨p.pending, some (quote, true)⟩
    else if c = quote then some ⟨p.pending, none⟩
    else some ⟨p.pending, some (quote, false)⟩
  | none =>
    if isQuote c then some ⟨p.pending, some (c, false)⟩
    else (nest p.pending c).map fun pending => ⟨pending, none⟩

/-- Reads a text, if no bracket in it is closed that is not open. -/
def run (p : Cursor) (s : List Char) : Option Cursor := s.foldlM step p

@[simp]
theorem run_nil (p : Cursor) : p.run [] = some p := rfl

theorem run_cons (p : Cursor) (c : Char) (s : List Char) :
    p.run (c :: s) = (p.step c).bind fun p => p.run s := by
  simp [run]

theorem run_append (p : Cursor) (s t : List Char) :
    p.run (s ++ t) = (p.run s).bind fun p => p.run t := by
  simp [run]

/-- More brackets may be open around a text that is read. -/
theorem step_pending {p p' : Cursor} {c : Char} (h : p.step c = some p') (outer : List Bracket) :
    step ⟨p.pending ++ outer, p.literal⟩ c = some ⟨p'.pending ++ outer, p'.literal⟩ := by
  obtain ⟨pending, literal⟩ := p
  unfold step at h ⊢
  rcases literal with _ | ⟨quote, _ | _⟩
  · by_cases hquote : isQuote c = true
    · simp only [hquote, if_true] at h ⊢
      cases h
      rfl
    · simp only [hquote] at h ⊢
      obtain ⟨pending', hnest, rfl⟩ := Option.map_eq_some_iff.1 h
      simp [nest_append hnest]
  · dsimp only at h ⊢
    split_ifs at h ⊢ <;> · cases h; rfl
  · cases h
    rfl

theorem run_pending {p p' : Cursor} {s : List Char} (h : p.run s = some p')
    (outer : List Bracket) :
    run ⟨p.pending ++ outer, p.literal⟩ s = some ⟨p'.pending ++ outer, p'.literal⟩ := by
  induction s generalizing p with
  | nil =>
    cases h
    rfl
  | cons c s ih =>
    rw [run_cons, Option.bind_eq_some_iff] at h
    obtain ⟨next, hstep, hrest⟩ := h
    rw [run_cons, step_pending hstep, Option.bind_some]
    exact ih hrest

end Cursor

/-- A text closes all brackets and quotes that it opens, and no others. -/
def Enclosed (s : List Char) : Prop := Cursor.run {} s = some {}

instance (s : List Char) : Decidable (Enclosed s) := inferInstanceAs (Decidable (_ = _))

/-- A character that is no bracket, no quote and no backslash. -/
def IsBare (c : Char) : Prop :=
  isQuote c = false ∧ c ≠ '\\' ∧ opens? c = none ∧ closes? c = none

instance (c : Char) : Decidable (IsBare c) := inferInstanceAs (Decidable (_ ∧ _))

/-- The characters that are not bare. -/
def marks : List Char := ['"', '\'', '\\', '(', ')', '[', ']', '{', '}']

theorem isBare_of_not_mem {c : Char} (h : c ∉ marks) : IsBare c := by
  simp only [marks, List.mem_cons, List.not_mem_nil, or_false, not_or] at h
  refine ⟨by simp [isQuote, h], h.2.2.1, ?_, ?_⟩
  · unfold opens?
    split <;> simp_all
  · unfold closes?
    split <;> simp_all

theorem isBare_of_class {p : Char → Bool} (hp : marks.any p = false) {c : Char}
    (hc : p c = true) : IsBare c :=
  isBare_of_not_mem fun hmem => List.any_eq_false.1 hp c hmem hc

theorem IsBare.step {c : Char} (h : IsBare c) (pending : List Bracket) :
    Cursor.step ⟨pending, none⟩ c = some ⟨pending, none⟩ := by
  obtain ⟨hquote, -, hopen, hclose⟩ := h
  simp [Cursor.step, nest, hquote, hopen, hclose]

theorem run_bare {s : List Char} (h : ∀ c ∈ s, IsBare c) (pending : List Bracket) :
    Cursor.run ⟨pending, none⟩ s = some ⟨pending, none⟩ := by
  induction s with
  | nil => rfl
  | cons c s ih =>
    rw [Cursor.run_cons, (h c List.mem_cons_self).step, Option.bind_some]
    exact ih fun d hd => h d (List.mem_cons_of_mem c hd)

namespace Enclosed

variable {s t : List Char}

theorem of_bare (h : ∀ c ∈ s, IsBare c) : Enclosed s := run_bare h []

theorem append (hs : Enclosed s) (ht : Enclosed t) : Enclosed (s ++ t) := by
  rw [Enclosed, Cursor.run_append, hs]
  exact ht

theorem run_eq (h : Enclosed s) (pending : List Bracket) :
    Cursor.run ⟨pending, none⟩ s = some ⟨pending, none⟩ := by
  simpa using Cursor.run_pending h pending

theorem group (h : Enclosed s) : Enclosed ('(' :: (s ++ [')'])) := by
  rw [Enclosed, Cursor.run_cons]
  show Cursor.run ⟨[.paren], none⟩ (s ++ [')']) = _
  rw [Cursor.run_append, h.run_eq]
  rfl

theorem square (h : Enclosed s) : Enclosed ('[' :: (s ++ [']'])) := by
  rw [Enclosed, Cursor.run_cons]
  show Cursor.run ⟨[.square], none⟩ (s ++ [']']) = _
  rw [Cursor.run_append, h.run_eq]
  rfl

end Enclosed

theorem run_literal {s : List Char} (h : ∀ c ∈ s, isQuote c = false ∧ c ≠ '\\')
    (pending : List Bracket) {quote : Char} (hquote : isQuote quote = true) (b : Bool) :
    ∃ literal, Cursor.run ⟨pending, some (quote, b)⟩ s = some ⟨pending, some literal⟩ := by
  induction s generalizing b with
  | nil => exact ⟨_, rfl⟩
  | cons c s ih =>
    obtain ⟨hc, hbackslash⟩ := h c List.mem_cons_self
    have hne : c ≠ quote := by
      rintro rfl
      rw [hc] at hquote
      cases hquote
    have hstep :
        Cursor.step ⟨pending, some (quote, b)⟩ c = some ⟨pending, some (quote, false)⟩ := by
      cases b <;> simp [Cursor.step, hne, hbackslash]
    rw [Cursor.run_cons, hstep, Option.bind_some]
    exact ih (fun d hd => h d (List.mem_cons_of_mem c hd)) false

/-- A reader is only ever in literals that a quote begins. -/
theorem isQuote_of_run {p p' : Cursor} {s : List Char} (h : p.run s = some p')
    (hp : ∀ quote b, p.literal = some (quote, b) → isQuote quote = true) {quote : Char} {b : Bool}
    (hquote : p'.literal = some (quote, b)) : isQuote quote = true := by
  induction s generalizing p with
  | nil =>
    cases h
    exact hp quote b hquote
  | cons c s ih =>
    rw [Cursor.run_cons, Option.bind_eq_some_iff] at h
    obtain ⟨next, hstep, hrest⟩ := h
    refine ih hrest fun q b hq => ?_
    obtain ⟨pending, literal⟩ := p
    unfold Cursor.step at hstep
    -- a literal begins at a quote, and goes on with the one that it began with
    rcases literal with _ | ⟨quote', _ | _⟩
    · by_cases hc : isQuote c = true
      · simp only [hc, if_true] at hstep
        cases hstep
        cases hq
        exact hc
      · simp only [hc] at hstep
        obtain ⟨_, -, rfl⟩ := Option.map_eq_some_iff.1 hstep
        cases hq
    · have hquote' := hp quote' false rfl
      dsimp only at hstep
      split_ifs at hstep <;> cases hstep <;> cases hq <;> exact hquote'
    · have hquote' := hp quote' true rfl
      cases hstep
      cases hq
      exact hquote'

theorem not_enclosed_square {s i : List Char} (hi : ∀ c ∈ i, IsBare c) :
    ¬Enclosed (s ++ '[' :: i) := by
  intro h
  rw [Enclosed, Cursor.run_append, Option.bind_eq_some_iff] at h
  obtain ⟨⟨pending, literal⟩, hs, hrest⟩ := h
  rcases literal with _ | ⟨quote, b⟩
  · rw [Cursor.run_cons] at hrest
    change Cursor.run ⟨.square :: pending, none⟩ i = _ at hrest
    rw [run_bare hi] at hrest
    cases hrest
  · have hquote : isQuote quote = true := isQuote_of_run hs (by simp) rfl
    have hplain : ∀ c ∈ '[' :: i, isQuote c = false ∧ c ≠ '\\' := by
      intro c hc
      rcases List.mem_cons.1 hc with rfl | hc
      · decide
      · exact ⟨(hi c hc).1, (hi c hc).2.1⟩
    obtain ⟨literal, hliteral⟩ := run_literal hplain pending hquote b
    rw [hliteral] at hrest
    cases hrest

/-! ### Postfix expressions -/

/-- A character of a name or a number. -/
def isNameChar (c : Char) : Bool := Text.isAlphanumeric c || c == '_' || c == '$'

theorem isBare_of_isNameChar {c : Char} (h : isNameChar c = true) : IsBare c :=
  isBare_of_class (p := isNameChar) (by decide) h

/-- The operators that are written as names. -/
def namedOperators : List (List Char) := ["sizeof".toList, "_Alignof".toList]

/-- A name, or a number without a fraction. -/
structure IsIdent (w : List Char) : Prop where
  ne_nil : w ≠ []
  chars : ∀ c ∈ w, isNameChar c = true
  not_operator : w ∉ namedOperators

/-- White space of C. -/
def isSpace (c : Char) : Bool := c == ' ' || c == '\t' || c == '\n' || c == '\r'

theorem isNameChar_of_isSpace {c : Char} (h : isSpace c = true) : isNameChar c = false := by
  rcases (by simpa [isSpace] using h : ((c = ' ' ∨ c = '\t') ∨ c = '\n') ∨ c = '\r') with
    ((rfl | rfl) | rfl) | rfl <;> decide

/-- What may stand between two quotes: a quote in it stands behind a backslash. -/
def isLiteralBody (quote : Char) : List Char → Bool
  | [] => true
  | '\\' :: c :: s => c != '\n' && isLiteralBody quote s
  | c :: s => c != quote && c != '\\' && isLiteralBody quote s

/-- A postfix expression of C: a name, a literal, a group in parentheses or a compound literal, with
indices, calls, fields and increments behind it. A symbol may stand with its payload in braces. -/
inductive IsPostfix (isType : List Char → Bool) : List Char → Prop
  | ident {w : List Char} (hw : IsIdent w) : IsPostfix isType w
  | literal {quote : Char} {body : List Char} (hquote : isQuote quote = true)
    (hbody : isLiteralBody quote body = true) : IsPostfix isType (quote :: (body ++ [quote]))
  | group {s : List Char} (hs : Enclosed s) (htype : isType s = false) :
    IsPostfix isType ('(' :: (s ++ [')']))
  | compound {type blanks s : List Char} (htype : isType type = true)
    (hblanks : ∀ c ∈ blanks, isSpace c = true) (hs : Enclosed s) :
    IsPostfix isType ('(' :: (type ++ ')' :: (blanks ++ '{' :: (s ++ ['}']))))
  | payload {w s : List Char} (hw : IsIdent w) (hs : Enclosed s) :
    IsPostfix isType (w ++ '{' :: (s ++ ['}']))
  | space {e : List Char} (he : IsPostfix isType e) {c : Char} (hc : isSpace c = true) :
    IsPostfix isType (e ++ [c])
  | index {e s : List Char} (he : IsPostfix isType e) (hs : Enclosed s) :
    IsPostfix isType (e ++ '[' :: (s ++ [']']))
  | call {e s : List Char} (he : IsPostfix isType e) (hs : Enclosed s) :
    IsPostfix isType (e ++ '(' :: (s ++ [')']))
  | field {e link blanks name : List Char} (he : IsPostfix isType e)
    (hlink : link = ['.'] ∨ link = ['-', '>']) (hblanks : ∀ c ∈ blanks, isSpace c = true)
    (hname : IsIdent name) : IsPostfix isType (e ++ (link ++ (blanks ++ name)))
  | increment {e op : List Char} (he : IsPostfix isType e)
    (hop : op = ['+', '+'] ∨ op = ['-', '-']) : IsPostfix isType (e ++ op)

variable {isType : List Char → Bool} {e text : List Char}

theorem IsIdent.exists_concat {w : List Char} (h : IsIdent w) :
    ∃ front c, w = front ++ [c] ∧ isNameChar c = true :=
  ⟨w.dropLast, w.getLast h.ne_nil, (List.dropLast_append_getLast h.ne_nil).symm,
    h.chars _ (List.getLast_mem h.ne_nil)⟩

/-- **The last character of a postfix expression tells its form**, if it is one of a name or closes
an index. -/
theorem IsPostfix.cases_last (h : IsPostfix isType text) :
    IsIdent text ∨
      (∃ e link blanks name, text = e ++ (link ++ (blanks ++ name)) ∧ IsPostfix isType e ∧
        (link = ['.'] ∨ link = ['-', '>']) ∧ (∀ c ∈ blanks, isSpace c = true) ∧ IsIdent name) ∨
      (∃ e s, text = e ++ '[' :: (s ++ [']']) ∧ IsPostfix isType e ∧ Enclosed s) ∨
      ∃ front c, text = front ++ [c] ∧ isNameChar c = false ∧ c ≠ ']' := by
  -- all other forms end in a character that is told apart from both
  have hother {P Q R : Prop} {text : List Char} (front : List Char) {c : Char}
      (heq : text = front ++ [c]) (hc : isNameChar c = false ∧ c ≠ ']') :
      P ∨ Q ∨ R ∨ ∃ front c, text = front ++ [c] ∧ isNameChar c = false ∧ c ≠ ']' :=
    .inr (.inr (.inr ⟨front, c, heq, hc⟩))
  cases h with
  | ident hw => exact .inl hw
  | field he hlink hblanks hname =>
    exact .inr (.inl ⟨_, _, _, _, rfl, he, hlink, hblanks, hname⟩)
  | index he hs => exact .inr (.inr (.inl ⟨_, _, rfl, he, hs⟩))
  | @literal quote body hquote =>
    refine hother (quote :: body) rfl ?_
    rcases (by simpa [isQuote] using hquote : quote = '"' ∨ quote = '\'') with rfl | rfl <;> decide
  | @group s => exact hother ('(' :: s) rfl (by decide)
  | @compound type blanks s =>
    exact hother ('(' :: (type ++ ')' :: (blanks ++ '{' :: s))) (c := '}') (by simp) (by decide)
  | @payload w s => exact hother (w ++ '{' :: s) (c := '}') (by simp) (by decide)
  | @space e _ c hc =>
    have hne : c ≠ ']' := by
      rintro rfl
      exact absurd hc (by decide)
    exact hother e rfl ⟨isNameChar_of_isSpace hc, hne⟩
  | @call e s => exact hother (e ++ '(' :: s) (c := ')') (by simp) (by decide)
  | @increment e op _ hop =>
    rcases hop with rfl | rfl
    · exact hother (e ++ ['+']) (c := '+') (by simp) (by decide)
    · exact hother (e ++ ['-']) (c := '-') (by simp) (by decide)

theorem concat_inj {s t : List Char} {c c' : Char} (h : s ++ [c] = t ++ [c']) : s = t ∧ c = c' := by
  obtain ⟨hs, hc⟩ := List.append_inj' h rfl
  exact ⟨hs, List.cons.inj hc |>.1⟩

/-- **What ends in an index is the index of what stands in front of it.** -/
theorem isPostfix_index_iff {i : List Char} (hi : ∀ c ∈ i, IsBare c) :
    IsPostfix isType (e ++ '[' :: (i ++ [']'])) ↔ IsPostfix isType e := by
  refine ⟨fun h => ?_, fun h => h.index (.of_bare hi)⟩
  have hsplit (e i : List Char) : e ++ '[' :: (i ++ [']']) = e ++ '[' :: i ++ [']'] := by simp
  rw [hsplit] at h
  rcases h.cases_last with hw | ⟨e', link, blanks, name, heq, -, -, -, hname⟩ |
    ⟨e', s, heq, he, hs⟩ | ⟨front, c, heq, -, hc⟩
  · exact absurd (hw.chars ']' (by simp)) (by decide)
  · obtain ⟨front, c, rfl, hc⟩ := hname.exists_concat
    rw [← List.append_assoc, ← List.append_assoc, ← List.append_assoc] at heq
    obtain ⟨-, rfl⟩ := concat_inj heq
    exact absurd hc (by decide)
  · rw [hsplit] at heq
    obtain ⟨heq, -⟩ := concat_inj heq
    rcases List.append_eq_append_iff.1 heq with ⟨m, rfl, hm⟩ | ⟨m, rfl, hm⟩
    · -- a bracket in front of the index would be in the number
      cases m with
      | nil => simpa using he
      | cons c m =>
        obtain ⟨rfl, rfl⟩ := List.cons.inj hm
        have := (hi '[' (by simp)).2.2.1
        cases this
    · cases m with
      | nil => simpa using he
      | cons c m =>
        obtain ⟨rfl, rfl⟩ := List.cons.inj hm
        exact absurd hs (not_enclosed_square hi)
  · exact absurd (concat_inj heq).2.symm hc

/-- A word at the end of a text, behind a character of no word, is all that may be read there. -/
theorem append_word_inj {p : Char → Bool} {s t w w' : List Char} (hw : ∀ c ∈ w, p c = true)
    (hw' : ∀ c ∈ w', p c = true) (hs : ∀ c, s.getLast? = some c → p c = false)
    (ht : ∀ c, t.getLast? = some c → p c = false) (h : s ++ w = t ++ w') : s = t ∧ w = w' := by
  have hnil {s m w : List Char} (hs : ∀ c, (s ++ m).getLast? = some c → p c = false)
      (hm : ∀ c ∈ m ++ w, p c = true) : m = [] := by
    by_contra hne
    have hlast := List.getLast?_eq_getLast_of_ne_nil hne
    have hfalse := hs _ (by rw [List.getLast?_append_of_ne_nil s hne, hlast])
    rw [hm _ (List.mem_append_left w (List.getLast_mem hne))] at hfalse
    cases hfalse
  rcases List.append_eq_append_iff.1 h with ⟨m, rfl, rfl⟩ | ⟨m, rfl, rfl⟩
  · obtain rfl := hnil ht hw
    simp
  · obtain rfl := hnil hs hw'
    simp

theorem exists_concat_link {link : List Char} (hlink : link = ['.'] ∨ link = ['-', '>'])
    (e : List Char) :
    ∃ front c, e ++ link = front ++ [c] ∧ isNameChar c = false ∧ isSpace c = false := by
  rcases hlink with rfl | rfl
  · exact ⟨e, '.', rfl, by decide⟩
  · exact ⟨e ++ ['-'], '>', by simp, by decide⟩

theorem append_link_inj {link link' e' : List Char} (hlink : link = ['.'] ∨ link = ['-', '>'])
    (hlink' : link' = ['.'] ∨ link' = ['-', '>']) (h : e ++ link = e' ++ link') : e = e' := by
  rcases hlink with rfl | rfl <;> rcases hlink' with rfl | rfl
  · exact List.append_cancel_right h
  · have hcut : e ++ ['.'] = e' ++ ['-'] ++ ['>'] := by simpa using h
    exact absurd (concat_inj hcut).2 (by decide)
  · have hcut : e ++ ['-'] ++ ['>'] = e' ++ ['.'] := by simpa using h
    exact absurd (concat_inj hcut).2 (by decide)
  · exact List.append_cancel_right h

/-- **What ends in a field is the field of what stands in front of it.** -/
theorem isPostfix_field_iff {link name : List Char} (hlink : link = ['.'] ∨ link = ['-', '>'])
    (hname : IsIdent name) :
    IsPostfix isType (e ++ (link ++ name)) ↔ IsPostfix isType e := by
  constructor
  · intro h
    obtain ⟨front, c, hc, hnot, hspace⟩ := exists_concat_link hlink e
    have hlinkLast : ∀ c', (e ++ link).getLast? = some c' → isNameChar c' = false := by
      simp [hc, hnot]
    have hend {x : List Char} {last : Char} (heq : e ++ link ++ name = x ++ [last]) :
        isNameChar last = true := by
      obtain ⟨front', last', rfl, hlast⟩ := hname.exists_concat
      rw [← List.append_assoc] at heq
      obtain ⟨-, rfl⟩ := concat_inj heq
      exact hlast
    rw [← List.append_assoc] at h
    rcases h.cases_last with hw | ⟨e', link', blanks, name', heq, he, hlink', hblanks, hname'⟩ |
      ⟨e', s, heq, -⟩ | ⟨front', c', heq, hnot', -⟩
    · have := hw.chars c (by simp [hc])
      rw [hnot] at this
      cases this
    · have hword {x : List Char} (hx : ∀ c, x.getLast? = some c → isNameChar c = false)
          (heq : e ++ link ++ name = x ++ name') : e ++ link = x :=
        (append_word_inj hname.chars hname'.chars hlinkLast hx heq).1
      rcases List.eq_nil_or_concat' blanks with rfl | ⟨blanks, space, rfl⟩
      · obtain ⟨front', c', hc', hnot', -⟩ := exists_concat_link hlink' e'
        have hsame := hword (x := e' ++ link') (by simp [hc', hnot']) (by simpa using heq)
        rwa [append_link_inj hlink hlink' hsame]
      · -- the link would end in white space
        have hspace' := hblanks space (by simp)
        have hsame := hword (x := e' ++ link' ++ blanks ++ [space])
          (by simp [isNameChar_of_isSpace hspace']) (by simpa using heq)
        rw [hc] at hsame
        obtain ⟨-, rfl⟩ := concat_inj hsame
        rw [hspace] at hspace'
        cases hspace'
    · have hindex : e' ++ '[' :: (s ++ [']']) = e' ++ '[' :: s ++ [']'] := by simp
      exact absurd (hend (heq.trans hindex)) (by decide)
    · rw [hend heq] at hnot'
      cases hnot'
  · intro h
    show IsPostfix isType (e ++ (link ++ ([] ++ name)))
    exact h.field hlink (by simp) hname

/-- **What an operator is applied to is not postfix**: a text that ends in a name or a number, has
more in it than that, and has no links. -/
theorem not_isPostfix_operation {last : Char} (hlast : text.getLast? = some last)
    (hname : isNameChar last = true) (hmore : text.all isNameChar = false)
    (hlinks : '.' ∉ text ∧ '>' ∉ text) : ¬IsPostfix isType text := by
  intro h
  rcases h.cases_last with hw | ⟨e, link, blanks, name, rfl, -, hlink, -⟩ | ⟨e, s, rfl, -⟩ |
    ⟨front, c, rfl, hc, -⟩
  · rw [List.all_eq_true.2 hw.chars] at hmore
    cases hmore
  · rcases hlink with rfl | rfl
    · exact hlinks.1 (by simp)
    · exact hlinks.2 (by simp)
  · have hclose : (e ++ '[' :: (s ++ [']'])).getLast? = some ']' := by
      rw [List.getLast?_append_cons, ← List.cons_append, List.getLast?_concat]
    cases hclose.symm.trans hlast
    exact absurd hname (by decide)
  · rw [List.getLast?_concat] at hlast
    cases hlast
    rw [hc] at hname
    cases hname

end TestSynth.Postfix
