import Mathlib.Data.List.Basic
import TestSynth.Proofs.Locality

/-!
# Where a reading fails

A reading that fails for a token would have gone on without it: with nothing in its place, with a
word where an atom is missing, and with a word behind the dot of a field.  If a group is not closed,
the reading stopped at the end of the lexemes, and it tells where the layer begins, not the group.

* `Value.Unfinished` : a reading that does not fail for a token, if nothing follows.
* `Value.Fault`, `Value.Missing` : a token that does not fit what is in front of it, and an atom
  that is missing.
* `Value.fault_of_read` : a reading that fails for a token has met one or the other.
* `Value.Opener`, `Value.opener_of_read` : where the layer or the atom begins that is not closed.
-/

namespace TestSynth

/-- Another token was expected. -/
def ParseError.isUnexpectedToken : ParseError → Bool
  | .unexpectedToken .. => true
  | _ => false

/-- A word. -/
def Token.isWord : Token → Bool
  | .word _ => true
  | _ => false

theorem Token.kind_ne (t : Token) : t.kind ≠ "field name" := by
  cases t <;> simp [kind]

namespace Value

section Except

variable {ε ε' α β : Type}

theorem bind_eq_error {x : Except ε α} {f : α → Except ε β} {e : ε} :
    x >>= f = .error e ↔ x = .error e ∨ ∃ a, x = .ok a ∧ f a = .error e := by
  cases x <;> simp [Bind.bind, Except.bind]

theorem mapError_eq_error {x : Except ε α} {f : ε → ε'} {e' : ε'} :
    x.mapError f = .error e' ↔ ∃ e, x = .error e ∧ f e = e' := by
  cases x with
  | error e => exact ⟨fun h => ⟨e, rfl, Except.error.inj h⟩, fun ⟨_, rfl, h⟩ => congrArg _ h⟩
  | ok a => exact ⟨nofun, fun ⟨_, h, _⟩ => nomatch h⟩

end Except

variable {awaited : Awaited} {size opened : Nat} {opener : String} {token : Token}
  {ls rest taken : List Lexeme} {e : ParseError}

/-! ### Readings that come to the end of the lexemes -/

/-- The reading came to the end of the lexemes, or did not fail for a token. -/
def Unfinished {α : Type} : Except Failure (α × List Lexeme) → Prop
  | .ok (_, rest) => rest = []
  | .error failure => failure.error.isUnexpectedToken = false

theorem Unfinished.bind {α β : Type} {x : Except Failure (α × List Lexeme)}
    {f : α × List Lexeme → Except Failure (β × List Lexeme)} (h : Unfinished x)
    (hf : ∀ a, Unfinished (f (a, []))) : Unfinished (x >>= f) := by
  match x, h with
  | .ok (a, _), rfl => exact hf a
  | .error _, h => exact h

/-- A reading of lexemes in a text of a given length. -/
abbrev Run := (size : Nat) → List Lexeme → Except Failure (Value × List Lexeme)

/-- A field name is due behind some lexemes: the reading goes on with a word, and with nothing
else. -/
structure FieldDue (run : Run) (taken : List Lexeme) : Prop where
  word : ∀ size l, l.token.isWord = true → Unfinished (run size (taken ++ [l]))
  other : ∀ size l rest, l.token.isWord = false → ∃ failure,
    run size (taken ++ l :: rest) = .error failure ∧ failure.error.isUnexpectedToken = true

/-- The reading fails for a token that does not fit what is in front of it.  Behind the dot of a
field, which is not the second of two, it blames the token behind that one. -/
inductive Fault (run : Run) (size : Nat) : List Lexeme → ParseError → Prop
  | token {taken rest : List Lexeme} {expected : String} (hexpected : expected ≠ "field name")
    (hrest : rest ≠ []) (hviable : ∀ size', Unfinished (run size' taken)) :
    Fault run size (taken ++ rest) (unexpected size expected rest)
  | field {taken rest : List Lexeme} {dot : Lexeme} (hlast : ∃ l ∈ taken.getLast?, l.token ≠ .dot)
    (hdot : dot.token = .dot) (hword : ∀ l ∈ rest.head?, l.token.isWord = false)
    (hdue : FieldDue run (taken ++ [dot])) :
    Fault run size (taken ++ dot :: rest) (unexpected size "field name" rest.tail)

/-- The reading fails because there is nothing but blanks where an atom should be. -/
inductive Missing (run : Run) (size : Nat) : List Lexeme → ParseError → Prop
  | atom {taken rest : List Lexeme}
    (hviable : ∀ size' gap start, Unfinished (run size' (taken ++ [⟨gap, .word "x", start⟩]))) :
    Missing run size (taken ++ rest) (unexpected size "expression" rest)

section Lift

variable {run run' : Run} {f : Nat → List Lexeme → Value × List Lexeme →
  Except Failure (Value × List Lexeme)}

theorem FieldDue.bind (h : FieldDue run taken) (hf : ∀ size ls v, Unfinished (f size ls (v, []))) :
    FieldDue (fun size ls => run size ls >>= f size ls) taken where
  word size l hl := (h.word size l hl).bind (hf _ _)
  other size l rest hl := by
    obtain ⟨failure, hfailure, hunexpected⟩ := h.other size l rest hl
    exact ⟨failure, bind_eq_error.2 (.inl hfailure), hunexpected⟩

theorem FieldDue.prepend (h : FieldDue run taken) (front : List Lexeme)
    (hrun : ∀ size ls, run' size (front ++ (taken ++ ls)) = run size (taken ++ ls)) :
    FieldDue run' (front ++ taken) where
  word size l hl := by
    rw [List.append_assoc, hrun]
    exact h.word size l hl
  other size l rest hl := by
    rw [List.append_assoc, hrun]
    exact h.other size l rest hl

/-- What is read behind a value does not matter to a fault in it. -/
theorem Fault.bind (h : Fault run size ls e) (hf : ∀ size ls v, Unfinished (f size ls (v, []))) :
    Fault (fun size ls => run size ls >>= f size ls) size ls e := by
  cases h with
  | token hexpected hrest hviable =>
    exact .token hexpected hrest fun size' => (hviable size').bind (hf _ _)
  | field hlast hdot hword hdue => exact .field hlast hdot hword (hdue.bind hf)

theorem Missing.bind (h : Missing run size ls e)
    (hf : ∀ size ls v, Unfinished (f size ls (v, []))) :
    Missing (fun size ls => run size ls >>= f size ls) size ls e := by
  cases h with
  | atom hviable => exact .atom fun size' gap start => (hviable size' gap start).bind (hf _ _)

theorem Fault.field_append {front : List Lexeme} {dot : Lexeme}
    (hlast : ∃ l ∈ taken.getLast?, l.token ≠ .dot) (hdot : dot.token = .dot)
    (hword : ∀ l ∈ rest.head?, l.token.isWord = false)
    (hdue : FieldDue run (front ++ (taken ++ [dot]))) :
    Fault run size (front ++ (taken ++ dot :: rest)) (unexpected size "field name" rest.tail) := by
  rw [← List.append_assoc] at hdue ⊢
  exact .field (hlast.imp fun _ h => ⟨List.mem_getLast?_append_of_mem_getLast? h.1, h.2⟩) hdot hword
    hdue

/-- What is read in front of a value does not matter either, if it does not depend on what
follows. -/
theorem Fault.prepend (h : Fault run size ls e) (front : List Lexeme)
    (hrun : ∀ size ls, run' size (front ++ ls) = run size ls) :
    Fault run' size (front ++ ls) e := by
  cases h with
  | token hexpected hrest hviable =>
    rw [← List.append_assoc]
    exact .token hexpected hrest fun size' => by rw [hrun]; exact hviable size'
  | field hlast hdot hword hdue =>
    exact .field_append hlast hdot hword (hdue.prepend front fun _ _ => hrun _ _)

theorem Missing.prepend (h : Missing run size ls e) (front : List Lexeme)
    (hrun : ∀ size ls, run' size (front ++ ls) = run size ls) :
    Missing run' size (front ++ ls) e := by
  cases h with
  | atom hviable =>
    rw [← List.append_assoc]
    refine .atom fun size' gap start => ?_
    rw [List.append_assoc, hrun]
    exact hviable size' gap start

/-- A fault behind a value is one behind what the value was read from. -/
theorem Fault.after {v : Value}
    (hlocal : ∀ size' rest', Continues rest rest' → run size' (taken ++ rest') = .ok (v, rest'))
    (h : Fault (fun size rest => f size (taken ++ rest) (v, rest)) size rest e) :
    Fault (fun size ls => run size ls >>= f size ls) size (taken ++ rest) e := by
  cases h with
  | @token taken' rest' _ hexpected hrest hviable =>
    rw [← List.append_assoc]
    refine .token hexpected hrest fun size' => ?_
    rw [hlocal size' taken' (.front taken' rest')]
    exact hviable size'
  | @field taken' rest' dot hlast hdot hword hdue =>
    refine .field_append hlast hdot hword (hdue.prepend taken fun size' rest'' => ?_)
    -- the value is read in front of the same lexeme as before
    have hcontinues : Continues (taken' ++ dot :: rest') ((taken' ++ [dot]) ++ rest'') := by
      simpa using Continues.append (taken' ++ [dot]) rest' rest'' (by simp)
    rw [hlocal size' _ hcontinues]
    rfl

end Lift

/-! ### Single steps -/

theorem expect_eq_error (h : expect size opener opened token ls = .error e) :
    ls = [] ∧ e = .unclosed opener opened ∨ ls ≠ [] ∧ e = unexpected size token.kind ls := by
  cases ls with
  | nil => exact .inl ⟨rfl, (Except.error.inj h).symm⟩
  | cons l ls =>
    rw [expect] at h
    split at h
    · cases h
    · exact .inr ⟨List.cons_ne_nil _ _, (Except.error.inj h).symm⟩

theorem raw_eq_error (h : raw opener opened awaited ls = .error e) :
    e = .unclosed opener opened := by
  rw [raw] at h
  split at h
  · cases h
  · exact (Except.error.inj h).symm

theorem index_eq_error {text : String} (h : Index.parse text = .error e) :
    e = .invalidIndex text := by
  rw [Index.parse] at h
  split at h
  · cases h
  · exact (Except.error.inj h).symm

theorem fieldNames_dot {dot : Lexeme} (hdot : dot.token = .dot)
    (hword : ∀ l ∈ ls.head?, l.token.isWord = false) :
    fieldNames size (dot :: ls) = .error (unexpected size "field name" ls.tail) := by
  obtain ⟨gap, _, start⟩ := dot
  subst hdot
  unfold fieldNames
  split
  · next heq =>
    cases heq
    cases hword _ rfl
  · next heq =>
    cases heq
    rfl
  · next hdot =>
    exact absurd rfl (hdot gap start ls)

theorem fieldNames_eq_error (h : fieldNames size ls = .error e) :
    ∃ fs fields dot rest, ls = fs ++ dot :: rest ∧ tokens fs = fieldTokens fields ∧
      dot.token = .dot ∧ (∀ l ∈ rest.head?, l.token.isWord = false) ∧
        e = unexpected size "field name" rest.tail := by
  fun_induction fieldNames size ls with
  | case1 gap start gap' name start' ls ih =>
    obtain hnames | ⟨_, _, h⟩ := bind_eq_error.1 h
    · obtain ⟨fs, fields, dot, rest, rfl, hfs, hdot, hword, rfl⟩ := ih hnames
      exact ⟨⟨gap, .dot, start⟩ :: ⟨gap', .word name, start'⟩ :: fs, name :: fields, dot, rest, rfl,
        congrArg (fun ts => Token.dot :: Token.word name :: ts) hfs, hdot, hword, rfl⟩
    · cases h
  | case2 gap start ls hnot =>
    refine ⟨[], [], ⟨gap, .dot, start⟩, ls, rfl, rfl, rfl, ?_, (Except.error.inj h).symm⟩
    rintro ⟨gap', t, start'⟩ hl
    obtain ⟨ls, rfl⟩ := List.head?_eq_some_iff.1 hl
    cases t with
    | word name => exact absurd rfl (hnot gap' name start' ls)
    | _ => rfl
  | case3 => cases h

/-- Behind a value its fields are read. -/
def fieldsBehind (completed : Option Value) (value : List String → Value) : Run := fun size ls => do
  let (fields, ls) ← (fieldNames size ls).mapError (⟨completed, ·⟩)
  return (value fields, ls)

theorem not_dot_of_fieldTokens {fields : List String} {fs : List Lexeme}
    (h : tokens fs = fieldTokens fields) : ∀ l ∈ fs.getLast?, l.token ≠ .dot := by
  intro l hl
  have hlast : (fieldTokens fields).getLast? = some l.token := by
    rw [← h, tokens, List.getLast?_map, hl, Option.map_some]
  rcases List.eq_nil_or_concat fields with rfl | ⟨fields, f, rfl⟩
  · cases hlast
  · rw [fieldTokens, List.concat_eq_append, List.flatMap_append, List.getLast?_append] at hlast
    have hword : l.token = .word f := (Option.some.inj hlast).symm
    rw [hword]
    simp

theorem fieldDue_fieldsBehind {completed : Option Value} {value : List String → Value}
    {fields : List String} {fs : List Lexeme} {dot : Lexeme} (hfs : tokens fs = fieldTokens fields)
    (hdot : dot.token = .dot) : FieldDue (fieldsBehind completed value) (fs ++ [dot]) where
  word size l hl := by
    have hread : fieldNames size ((fs ++ [dot]) ++ [l]) = .ok (fields ++ [l.text], []) := by
      obtain ⟨gap, _, start⟩ := dot
      obtain ⟨gap', t, start'⟩ := l
      subst hdot
      cases t with
      | word name =>
        rw [List.append_assoc, fieldNames_append_of_tokens hfs]
        rfl
      | _ => cases hl
    rw [fieldsBehind, hread]
    rfl
  other size l rest hl := by
    have hread := @fieldNames_append_of_tokens size (dot :: l :: rest) _ _ hfs
    rw [fieldNames_dot hdot (by rintro _ ⟨⟩; exact hl)] at hread
    rw [List.append_assoc, fieldsBehind, List.singleton_append, hread]
    exact ⟨_, rfl, rfl⟩

/-- Fields fail behind a lexeme that is no dot, because that is the end of what they are taken
from or the name of the field before. -/
theorem fault_of_fieldsBehind {run : Run} {front : List Lexeme} {completed : Option Value}
    {value : List String → Value} {failure : Failure}
    (hfront : ∃ l ∈ front.getLast?, l.token ≠ .dot)
    (hrun : ∀ size ls, run size (front ++ ls) = fieldsBehind completed value size ls)
    (h : fieldsBehind completed value size ls = .error failure) :
    Fault run size (front ++ ls) failure.error := by
  obtain h | ⟨_, _, h⟩ := bind_eq_error.1 h
  · obtain ⟨e, he, rfl⟩ := mapError_eq_error.1 h
    obtain ⟨fs, fields, dot, rest, rfl, hfs, hdot, hword, rfl⟩ := fieldNames_eq_error he
    have hlast : ∃ l ∈ (front ++ fs).getLast?, l.token ≠ .dot := by
      rw [List.getLast?_append]
      cases hl : fs.getLast? with
      | none => exact hfront
      | some l => exact ⟨l, rfl, not_dot_of_fieldTokens hfs l hl⟩
    have hdue := (fieldDue_fieldsBehind hfs hdot).prepend front fun size' ls' => hrun size' _
    rw [← List.append_assoc] at hdue ⊢
    exact .field hlast hdot hword hdue
  · cases h

/-! ### Layers -/

/-- What is read of an element behind its base. -/
def elementBehind (opened : Nat) (base : Value) : Run := fun size ls => do
  let (index, type, ls) ← (elementTail size opened ls).mapError (⟨some base, ·⟩)
  fieldsBehind (some (.element base index type [])) (.element base index type) size ls

/-- What is read of a region behind the value in it. -/
def regionBehind (opened : Nat) (value : Value) : Run := fun size ls => do
  let ls ← (expect size Token.regionOpen.spelling opened .closeBrace ls).mapError (⟨some value, ·⟩)
  fieldsBehind (some value) (.region value) size ls

/-- What is read of a definition behind the value in it. -/
def definitionBehind (opened : Nat) (name type source : String) (value : Value) : Run :=
  fun size ls => do
    let rest ← (expect size "<" opened .closeAngle ls).mapError (⟨some value, ·⟩)
    return (.definition name type value source, rest)

/-- The index and the type of an element fail for a token only at a delimiter, without which the
text would be unclosed. -/
theorem elementTail_eq_error (h : elementTail size opened ls = .error e)
    (he : e.isUnexpectedToken = true) :
    ∃ taken rest, ∃ token : Token, ls = taken ++ rest ∧ rest ≠ [] ∧
      e = unexpected size token.kind rest ∧ ∀ size', elementTail size' opened taken =
        .error (.unclosed Token.elementOpen.spelling opened) := by
  have hclosed {e : ParseError} {α : Prop} (h : e = .unclosed Token.elementOpen.spelling opened)
      (he : e.isUnexpectedToken = true) : α := by
    rw [h] at he
    cases he
  -- in front of each of the three delimiters, what was taken so far is unclosed by itself
  obtain hfail | ⟨ls₁, hcomma₁, h₁⟩ := bind_eq_error.1 h
  · obtain ⟨-, hend⟩ | ⟨hls, rfl⟩ := expect_eq_error hfail
    · exact hclosed hend he
    · exact ⟨[], ls, _, rfl, hls, rfl, fun size' => rfl⟩
  obtain ⟨gap₁, start₁, rfl⟩ := expect_eq_ok.1 hcomma₁
  obtain hfail | ⟨⟨text, ls₂⟩, hindex, h₂⟩ := bind_eq_error.1 h₁
  · exact hclosed (raw_eq_error hfail) he
  obtain ⟨indexTaken, rfl, hindexOpen, hindex'⟩ := raw_local hindex
  obtain hfail | ⟨ls₃, hcomma₂, h₃⟩ := bind_eq_error.1 h₂
  · obtain ⟨-, hend⟩ | ⟨hls, rfl⟩ := expect_eq_error hfail
    · exact hclosed hend he
    · refine ⟨⟨gap₁, .comma, start₁⟩ :: indexTaken, ls₂, _, rfl, hls, rfl, fun size' => ?_⟩
      exact bind_eq_error.2
        (.inr ⟨_, expect_eq_ok.2 ⟨_, _, rfl⟩, bind_eq_error.2 (.inl hindexOpen)⟩)
  obtain ⟨gap₂, start₂, rfl⟩ := expect_eq_ok.1 hcomma₂
  obtain hfail | ⟨⟨type, ls₄⟩, htype, h₄⟩ := bind_eq_error.1 h₃
  · exact hclosed (raw_eq_error hfail) he
  obtain ⟨typeTaken, rfl, htypeOpen, -⟩ := raw_local htype
  obtain hfail | ⟨ls₅, -, h₅⟩ := bind_eq_error.1 h₄
  · obtain ⟨-, hend⟩ | ⟨hls, rfl⟩ := expect_eq_error hfail
    · exact hclosed hend he
    · refine ⟨⟨gap₁, .comma, start₁⟩ :: (indexTaken ++ ⟨gap₂, .comma, start₂⟩ :: typeTaken), ls₄, _,
        by simp, hls, rfl, fun size' => ?_⟩
      exact bind_eq_error.2 (.inr ⟨_, expect_eq_ok.2 ⟨_, _, rfl⟩, bind_eq_error.2 (.inr ⟨_,
        hindex' _ _ (.cons _ _ _), bind_eq_error.2 (.inr ⟨_, expect_eq_ok.2 ⟨_, _, rfl⟩,
          bind_eq_error.2 (.inl htypeOpen)⟩)⟩)⟩)
  obtain hfail | ⟨i, -, h₆⟩ := bind_eq_error.1 h₅
  · rw [index_eq_error hfail] at he
    cases he
  · cases h₆

variable {failure : Failure}

theorem Fault.start {run : Run} (hls : ls ≠ []) (hviable : ∀ size', Unfinished (run size' [])) :
    Fault run size ls (unexpected size token.kind ls) :=
  @Fault.token run size [] ls _ token.kind_ne hls hviable

theorem fault_of_elementBehind {base : Value}
    (h : elementBehind opened base size ls = .error failure)
    (he : failure.error.isUnexpectedToken = true) :
    Fault (elementBehind opened base) size ls failure.error := by
  obtain hfail | ⟨⟨index, type, ls₂⟩, htail, hfields⟩ := bind_eq_error.1 h
  · obtain ⟨e, htail, rfl⟩ := mapError_eq_error.1 hfail
    obtain ⟨taken, rest, token, rfl, hrest, rfl, hopen⟩ := elementTail_eq_error htail he
    refine .token token.kind_ne hrest fun size' => ?_
    rw [elementBehind, hopen size']
    rfl
  · obtain ⟨taken, rfl, ⟨l, hl, hclose⟩, htail'⟩ := elementTail_local (mapError_eq_ok.1 htail)
    refine fault_of_fieldsBehind ⟨l, hl, hclose ▸ nofun⟩ (fun size' ls' => ?_) hfields
    rw [elementBehind, htail' size' ls']
    rfl

theorem fault_of_regionBehind {value : Value}
    (h : regionBehind opened value size ls = .error failure)
    (he : failure.error.isUnexpectedToken = true) :
    Fault (regionBehind opened value) size ls failure.error := by
  obtain hfail | ⟨ls₁, hclose, hfields⟩ := bind_eq_error.1 h
  · obtain ⟨e, hclose, rfl⟩ := mapError_eq_error.1 hfail
    obtain ⟨-, rfl⟩ | ⟨hls, rfl⟩ := expect_eq_error hclose
    · cases he
    · exact .start hls fun size' => rfl
  · obtain ⟨gap, start, rfl⟩ := expect_eq_ok.1 (mapError_eq_ok.1 hclose)
    have hfront : ∃ l ∈ [(⟨gap, .closeBrace, start⟩ : Lexeme)].getLast?, l.token ≠ .dot :=
      ⟨_, rfl, nofun⟩
    exact fault_of_fieldsBehind hfront (fun _ _ => rfl) hfields

theorem fault_of_definitionBehind {name type source : String} {value : Value}
    (h : definitionBehind opened name type source value size ls = .error failure)
    (he : failure.error.isUnexpectedToken = true) :
    Fault (definitionBehind opened name type source value) size ls failure.error := by
  obtain hfail | ⟨_, _, hdone⟩ := bind_eq_error.1 h
  · obtain ⟨e, hclose, rfl⟩ := mapError_eq_error.1 hfail
    obtain ⟨-, rfl⟩ | ⟨hls, rfl⟩ := expect_eq_error hclose
    · cases he
    · exact .start hls fun size' => rfl
  · cases hdone

theorem fault_of_layer {run run' : Run} {front : List Lexeme}
    {f : Nat → List Lexeme → Value × List Lexeme → Except Failure (Value × List Lexeme)}
    (hrun : ∀ size ls, run' size (front ++ ls) = run size ls >>= f size ls)
    (hf : ∀ size ls v, Unfinished (f size ls (v, [])))
    (hinner : run size ls = .error failure →
      Fault run size ls failure.error ∨ Missing run size ls failure.error)
    (hlocal : ∀ v rest, run size ls = .ok (v, rest) → ∃ taken, ls = taken ++ rest ∧
      ∀ size' rest', Continues rest rest' → run size' (taken ++ rest') = .ok (v, rest'))
    (hbehind : ∀ v taken rest, f size (taken ++ rest) (v, rest) = .error failure →
      Fault (fun size rest => f size (taken ++ rest) (v, rest)) size rest failure.error)
    (h : run' size (front ++ ls) = .error failure) :
    Fault run' size (front ++ ls) failure.error ∨
      Missing run' size (front ++ ls) failure.error := by
  rw [hrun] at h
  obtain hfail | ⟨⟨v, rest⟩, hv, hfail⟩ := bind_eq_error.1 h
  · exact (hinner hfail).imp (fun h => (h.bind hf).prepend front hrun)
      fun h => (h.bind hf).prepend front hrun
  · obtain ⟨taken, rfl, htaken⟩ := hlocal v rest hv
    exact .inl ((Fault.after htaken (hbehind v taken rest hfail)).prepend front hrun)

/-! ### Atoms -/

theorem StartsAtom.append_word (h : StartsAtom (tokens (taken ++ rest))) {l : Lexeme}
    (hl : l.token.isWord = true) : StartsAtom (tokens (taken ++ [l])) := by
  have hword (t : Token) (ht : t.isWord = false) : l.token ≠ t := by
    rintro rfl
    rw [ht] at hl
    cases hl
  cases taken with
  | nil =>
    exact ⟨l.token, rfl, hword _ rfl, hword _ rfl, nofun⟩
  | cons m taken =>
    obtain ⟨t, ht, helement, hregion, hdefinition⟩ := h
    refine ⟨t, ht, helement, hregion, fun hregister hangle => ?_⟩
    cases taken with
    | nil => exact hword .openAngle rfl (Option.some.inj hangle)
    | cons m' taken => exact hdefinition hregister hangle

/-- An atom fails for a token only if it is blank, so a word makes it one. -/
theorem atomValue_eq_error (h : atomValue size awaited ls = .error e)
    (he : e.isUnexpectedToken = true) :
    ∃ taken rest, ls = taken ++ rest ∧ e = unexpected size "expression" rest ∧
      ∀ size' gap start, ∃ v,
        atomValue size' awaited (taken ++ [⟨gap, .word "x", start⟩]) = .ok (v, []) := by
  obtain ⟨taken, st, rest, htake⟩ : ∃ taken st rest, takeAtom awaited {} ls = (taken, st, rest) :=
    ⟨_, _, _, rfl⟩
  obtain ⟨rfl, -⟩ := takeAtom_layout htake
  obtain ⟨hpass, rfl, -⟩ := takeAtom_eq_iff.1 htake
  simp only [atomValue, htake] at h
  split at h
  · cases h
    cases he
  · next hnesting =>
    split at h
    · cases h
      refine ⟨taken, rest, rfl, rfl, fun size' gap start => ?_⟩
      have hread : Reads size' awaited (taken ++ [⟨gap, .word "x", start⟩]) [] := by
        have htext : (rawText (taken ++ [⟨gap, .word "x", start⟩])).isEmpty = false :=
          isEmpty_rawText (List.mem_append_right _ List.mem_cons_self)
            (show 'x' ∈ "x".toList by decide) (by decide)
        rw [reads_iff htext, tokens, List.map_append, AtomState.passes_append_iff,
          List.foldl_append]
        exact ⟨⟨hpass, Bool.and_false _, trivial⟩, Nat.eq_zero_of_not_pos hnesting, by simp⟩
      simpa [Reads] using hread
    · cases h

/-! ### Readings -/

section Definition

variable {limit depth start start₁ : Nat} {gap gap₁ name : String}

theorem read_definition {type : String} {typeTaken : List Lexeme} {comma : Lexeme}
    (hcomma : comma.token = .comma)
    (htype : ∀ rest,
      raw "<" start .comma (typeTaken ++ comma :: rest) = .ok (type, comma :: rest)) :
    read size limit (depth + 1) awaited ((⟨gap, .register name, start⟩ ::
        ⟨gap₁, .openAngle, start₁⟩ :: (typeTaken ++ [comma])) ++ ls) =
      read size limit depth .closeAngle ls >>= fun b => definitionBehind start name type
        (Lexeme.sourceText (ls.take (ls.length - b.2.length))) b.1 size b.2 := by
  have happend : (typeTaken ++ [comma]) ++ ls = typeTaken ++ comma :: ls := by simp
  show definitionValue _ _ _ _ ((typeTaken ++ [comma]) ++ ls) = _
  rw [happend, definitionValue, htype ls]
  show (expect size "<" start .comma (comma :: ls)).mapError _ >>= _ = _
  rw [expect_cons hcomma]
  rfl

theorem fault_of_definition
    (hinner : ∀ {awaited : Awaited} {ls : List Lexeme},
      read size limit depth awaited ls = .error failure →
        Fault (read · limit depth awaited ·) size ls failure.error ∨
          Missing (read · limit depth awaited ·) size ls failure.error)
    (h : read size limit (depth + 1) awaited (⟨gap, .register name, start⟩ ::
      ⟨gap₁, .openAngle, start₁⟩ :: ls) = .error failure)
    (he : failure.error.isUnexpectedToken = true) :
    Fault (read · limit (depth + 1) awaited ·) size (⟨gap, .register name, start⟩ ::
        ⟨gap₁, .openAngle, start₁⟩ :: ls) failure.error ∨
      Missing (read · limit (depth + 1) awaited ·) size (⟨gap, .register name, start⟩ ::
        ⟨gap₁, .openAngle, start₁⟩ :: ls) failure.error := by
  obtain hfail | ⟨⟨type, ls₁⟩, htype, h₁⟩ := bind_eq_error.1 h
  · obtain ⟨e, hraw, rfl⟩ := mapError_eq_error.1 hfail
    rw [raw_eq_error hraw] at he
    cases he
  obtain ⟨typeTaken, rfl, hopen, htype'⟩ := raw_local (mapError_eq_ok.1 htype)
  obtain hfail | ⟨ls₂, hcomma, -⟩ := bind_eq_error.1 h₁
  · obtain ⟨e, hexpect, rfl⟩ := mapError_eq_error.1 hfail
    obtain ⟨-, rfl⟩ | ⟨hls, rfl⟩ := expect_eq_error hexpect
    · cases he
    · -- without the token the type would be unclosed
      refine .inl (@Fault.token _ _ (⟨gap, .register name, start⟩ ::
        ⟨gap₁, .openAngle, start₁⟩ :: typeTaken) ls₁ _ (Token.kind_ne _) hls fun size' => ?_)
      show Unfinished (definitionValue _ _ _ _ _)
      rw [definitionValue, hopen]
      rfl
  obtain ⟨gap₂, start₂, rfl⟩ := expect_eq_ok.1 (mapError_eq_ok.1 hcomma)
  have hfront : (⟨gap, .register name, start⟩ :: ⟨gap₁, .openAngle, start₁⟩ ::
      (typeTaken ++ ⟨gap₂, .comma, start₂⟩ :: ls₂) : List Lexeme) =
        (⟨gap, .register name, start⟩ :: ⟨gap₁, .openAngle, start₁⟩ ::
          (typeTaken ++ [⟨gap₂, .comma, start₂⟩])) ++ ls₂ := by
    simp
  rw [hfront] at h ⊢
  refine @fault_of_layer _ _ _ (read · limit depth .closeAngle ·) _ _ _
    (fun _ _ => read_definition rfl fun _ => htype' _ _ (.cons _ _ _)) (fun _ _ _ => rfl)
    hinner (fun _ _ => read_local) (fun v taken rest hfail => ?_) h
  have hsource (rest : List Lexeme) :
      (taken ++ rest).take ((taken ++ rest).length - rest.length) = taken := by
    simp
  simp only [hsource] at hfail ⊢
  exact fault_of_definitionBehind hfail he

end Definition

/-- **A reading that fails for a token has met one that does not fit, or no atom.** -/
theorem fault_of_read {limit depth : Nat}
    (h : read size limit depth awaited ls = .error failure)
    (he : failure.error.isUnexpectedToken = true) :
    Fault (read · limit depth awaited ·) size ls failure.error ∨
      Missing (read · limit depth awaited ·) size ls failure.error := by
  induction depth generalizing awaited ls with
  | zero =>
    cases h
    cases he
  | succ depth ih =>
    have hinner {awaited : Awaited} {ls : List Lexeme}
        (h : read size limit depth awaited ls = .error failure) := @ih awaited ls h
    rcases layer_cases ls with rfl | ⟨gap, start, ls, rfl⟩ | ⟨gap, start, ls, rfl⟩ |
      ⟨gap, name, start, gap₁, start₁, ls, rfl⟩ | hstarts
    · cases h
      cases he
    · exact @fault_of_layer _ _ _ (read · limit depth .comma ·) _ [⟨gap, .elementOpen, start⟩]
        (fun size _ b => elementBehind start b.1 size b.2) (fun _ _ => rfl) (fun _ _ _ => rfl)
        hinner (fun _ _ => read_local) (fun _ _ _ hfail => fault_of_elementBehind hfail he) h
    · exact @fault_of_layer _ _ _ (read · limit depth .closeBrace ·) _ [⟨gap, .regionOpen, start⟩]
        (fun size _ b => regionBehind start b.1 size b.2) (fun _ _ => rfl) (fun _ _ _ => rfl) hinner
        (fun _ _ => read_local) (fun _ _ _ hfail => fault_of_regionBehind hfail he) h
    · exact fault_of_definition hinner h he
    · rw [read_of_startsAtom hstarts] at h
      obtain ⟨e, hfail, rfl⟩ := mapError_eq_error.1 h
      obtain ⟨taken, rest, rfl, rfl, hword⟩ := atomValue_eq_error hfail he
      refine .inr (.atom fun size' gap start => ?_)
      -- a word in the place of the atom would be one
      obtain ⟨v, hv⟩ := hword size' gap start
      show Unfinished (read _ _ _ _ _)
      rw [read_of_startsAtom (hstarts.append_word rfl), hv]
      rfl

/-! ### What is not closed -/

/-- The layer or the atom that is not closed begins here. -/
inductive Opener : (opener : String) → (position : Nat) → List Lexeme → Prop
  | layer {l : Lexeme} {rest : List Lexeme} (h : l.token = .elementOpen ∨ l.token = .regionOpen) :
    Opener l.text l.start (l :: rest)
  | definition {l l' : Lexeme} {rest : List Lexeme} (hregister : l.token.isRegister = true)
    (hangle : l'.token = .openAngle) : Opener "<" l.start (l :: l' :: rest)
  | atom {l : Lexeme} {rest : List Lexeme} (awaited : Awaited)
    (hpass : AtomState.Passes awaited {} (tokens (l :: rest)))
    (hopen : 0 < (stateBehind (l :: rest)).nesting) : Opener "\x7b" l.start (l :: rest)

variable {opener' : String} {position : Nat}

theorem expect_eq_unclosed
    (h : expect size opener opened token ls = .error (.unclosed opener' position)) :
    opener' = opener ∧ position = opened := by
  obtain ⟨-, hend⟩ | ⟨-, hunexpected⟩ := expect_eq_error h
  · cases hend
    exact ⟨rfl, rfl⟩
  · cases hunexpected

theorem raw_eq_unclosed
    (h : raw opener opened awaited ls = .error (.unclosed opener' position)) :
    opener' = opener ∧ position = opened := by
  cases raw_eq_error h
  exact ⟨rfl, rfl⟩

theorem elementTail_eq_unclosed
    (h : elementTail size opened ls = .error (.unclosed opener' position)) :
    opener' = Token.elementOpen.spelling ∧ position = opened := by
  obtain hfail | ⟨ls₁, -, h₁⟩ := bind_eq_error.1 h
  · exact expect_eq_unclosed hfail
  obtain hfail | ⟨⟨text, ls₂⟩, -, h₂⟩ := bind_eq_error.1 h₁
  · exact raw_eq_unclosed hfail
  obtain hfail | ⟨ls₃, -, h₃⟩ := bind_eq_error.1 h₂
  · exact expect_eq_unclosed hfail
  obtain hfail | ⟨⟨type, ls₄⟩, -, h₄⟩ := bind_eq_error.1 h₃
  · exact raw_eq_unclosed hfail
  obtain hfail | ⟨ls₅, -, h₅⟩ := bind_eq_error.1 h₄
  · exact expect_eq_unclosed hfail
  obtain hfail | ⟨i, -, h₆⟩ := bind_eq_error.1 h₅
  · cases index_eq_error hfail
  · cases h₆

theorem fieldsBehind_ne_unclosed {completed completed' : Option Value}
    {value : List String → Value} :
    fieldsBehind completed value size ls ≠ .error ⟨completed', .unclosed opener position⟩ := by
  intro h
  obtain hfail | ⟨_, _, hdone⟩ := bind_eq_error.1 h
  · obtain ⟨e, he, heq⟩ := mapError_eq_error.1 hfail
    obtain ⟨-, -, -, rest, -, -, -, -, rfl⟩ := fieldNames_eq_error he
    cases heq
  · cases hdone

/-- An atom that is not closed is read to the end of the lexemes. -/
theorem atomValue_eq_unclosed
    (h : atomValue size awaited ls = .error (.unclosed opener position)) :
    opener = "\x7b" ∧ position = Lexeme.position size ls ∧
      AtomState.Passes awaited {} (tokens ls) ∧ 0 < (stateBehind ls).nesting := by
  obtain ⟨taken, st, rest, htake⟩ : ∃ taken st rest, takeAtom awaited {} ls = (taken, st, rest) :=
    ⟨_, _, _, rfl⟩
  obtain ⟨rfl, -⟩ := takeAtom_layout htake
  obtain ⟨hpass, rfl, hends⟩ := takeAtom_eq_iff.1 htake
  simp only [atomValue, htake] at h
  split at h
  · next hnesting =>
    -- an atom ends outside of all groups, so it does not end here
    obtain rfl : rest = [] := by
      cases rest with
      | nil => rfl
      | cons l rest => exact absurd (hends l rfl).1 (Nat.ne_of_gt hnesting)
    rw [List.append_nil] at h ⊢
    cases h
    exact ⟨rfl, rfl, hpass, hnesting⟩
  · split at h
    · cases h
    · cases h

/-- **A reading that fails for what is not closed tells where the layer or the atom begins.** -/
theorem opener_of_read {limit depth : Nat} {completed : Option Value}
    (h : read size limit depth awaited ls = .error ⟨completed, .unclosed opener position⟩) :
    ∃ rest, rest <:+ ls ∧ Opener opener position rest := by
  induction depth generalizing awaited ls with
  | zero => cases h
  | succ depth ih =>
    rcases layer_cases ls with rfl | ⟨gap, start, ls, rfl⟩ | ⟨gap, start, ls, rfl⟩ |
      ⟨gap, name, start, gap₁, start₁, ls, rfl⟩ | hstarts
    · cases h
    · -- the text ends in the base, behind the base, or in the fields, which need no end
      obtain hinner | ⟨⟨base, ls₁⟩, -, hbehind⟩ := bind_eq_error.1 h
      · obtain ⟨rest, hrest, hopener⟩ := ih hinner
        exact ⟨rest, hrest.trans (List.suffix_cons _ _), hopener⟩
      obtain hfail | ⟨⟨index, type, ls₂⟩, -, hfields⟩ := bind_eq_error.1 hbehind
      · obtain ⟨e, htail, heq⟩ := mapError_eq_error.1 hfail
        cases heq
        obtain ⟨rfl, rfl⟩ := elementTail_eq_unclosed htail
        exact ⟨_, List.suffix_rfl, @Opener.layer ⟨gap, .elementOpen, _⟩ ls (.inl rfl)⟩
      · exact absurd hfields fieldsBehind_ne_unclosed
    · obtain hinner | ⟨⟨value, ls₁⟩, -, hbehind⟩ := bind_eq_error.1 h
      · obtain ⟨rest, hrest, hopener⟩ := ih hinner
        exact ⟨rest, hrest.trans (List.suffix_cons _ _), hopener⟩
      obtain hfail | ⟨ls₂, -, hfields⟩ := bind_eq_error.1 hbehind
      · obtain ⟨e, hexpect, heq⟩ := mapError_eq_error.1 hfail
        cases heq
        obtain ⟨rfl, rfl⟩ := expect_eq_unclosed hexpect
        exact ⟨_, List.suffix_rfl, @Opener.layer ⟨gap, .regionOpen, _⟩ ls (.inr rfl)⟩
      · exact absurd hfields fieldsBehind_ne_unclosed
    · have hopener : opener = "<" ∧ position = start → ∃ rest, rest <:+
          (⟨gap, .register name, start⟩ :: ⟨gap₁, .openAngle, start₁⟩ :: ls : List Lexeme) ∧
            Opener opener position rest := by
        rintro ⟨rfl, rfl⟩
        exact ⟨_, List.suffix_rfl,
          @Opener.definition ⟨gap, .register name, _⟩ ⟨gap₁, .openAngle, start₁⟩ ls rfl rfl⟩
      obtain hfail | ⟨⟨type, ls₁⟩, htype, h₁⟩ := bind_eq_error.1 h
      · obtain ⟨e, hraw, heq⟩ := mapError_eq_error.1 hfail
        cases heq
        exact hopener (raw_eq_unclosed hraw)
      obtain hfail | ⟨ls₂, hcomma, h₂⟩ := bind_eq_error.1 h₁
      · obtain ⟨e, hexpect, heq⟩ := mapError_eq_error.1 hfail
        cases heq
        exact hopener (expect_eq_unclosed hexpect)
      obtain hinner | ⟨⟨value, ls₃⟩, -, hbehind⟩ := bind_eq_error.1 h₂
      · obtain ⟨rest, hrest, hinner⟩ := ih hinner
        have hsuffix : ls₂ <:+ ls := (expect_suffix (mapError_eq_ok.1 hcomma)).trans
          (raw_suffix (mapError_eq_ok.1 htype))
        exact ⟨rest, (hrest.trans hsuffix).trans ((List.suffix_cons _ _).trans
          (List.suffix_cons _ _)), hinner⟩
      obtain hfail | ⟨_, _, hdone⟩ := bind_eq_error.1 hbehind
      · obtain ⟨e, hexpect, heq⟩ := mapError_eq_error.1 hfail
        cases heq
        exact hopener (expect_eq_unclosed hexpect)
      · cases hdone
    · rw [read_of_startsAtom hstarts] at h
      obtain ⟨e, hfail, heq⟩ := mapError_eq_error.1 h
      cases heq
      obtain ⟨rfl, rfl, hpass, hopen⟩ := atomValue_eq_unclosed hfail
      obtain ⟨t, ht, -⟩ := hstarts
      obtain ⟨l, ls, rfl⟩ : ∃ l ls', ls = l :: ls' := by
        cases ls with
        | nil => cases ht
        | cons l ls => exact ⟨l, ls, rfl⟩
      exact ⟨_, List.suffix_rfl, .atom awaited hpass hopen⟩

end Value

end TestSynth
