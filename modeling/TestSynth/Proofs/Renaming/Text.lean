import TestSynth.Text.Blank
import TestSynth.Value.Token
import TestSynth.Proofs.IndexText
import TestSynth.Proofs.Lexing
import TestSynth.Proofs.PointerLevels
import Mathlib.Logic.Equiv.Basic

/-!
# Renaming of register symbols

A renaming exchanges the register symbols of a case for others.  In a text it applies to every run
of name characters that is a register symbol, and leaves all else as it is; so it can be undone, and
it goes through a text part by part, wherever that is cut in front of or behind a separator.

* `Renaming.chars_append` : a text is renamed part by part.
* `Renaming.symm_chars` : a renaming is undone by its inverse.
* `Renaming.chars_of_plain` : texts without dollar signs have no register symbols.
* `Renaming.takeWhile_chars`, `Renaming.dropWhile_chars` : a text is cut in the same places before
  and after the renaming.
-/

namespace TestSynth

/-- A register symbol. -/
abbrev Register := { w : List Char // Token.isNumbered "reg_$".toList w = true }

/-- A renaming of register symbols. -/
abbrev Renaming := Equiv.Perm Register

namespace Text

/-- A character that can be part of a name: not a blank, not a star and no delimiter. -/
def isNameChar (c : Char) : Bool := Token.isWordChar c && !isBlank c && c != '*'

/-- A text without dollar signs. -/
def Plain (s : List Char) : Prop := '$' ∉ s

instance (s : List Char) : Decidable (Plain s) := inferInstanceAs (Decidable ('$' ∉ s))

theorem forall_mem {p : Char → Prop} [DecidablePred p] {s : List Char}
    (h : (s.all fun c => decide (p c)) = true) : ∀ c ∈ s, p c :=
  fun c hc => of_decide_eq_true (List.all_eq_true.1 h c hc)

theorem forall_some {p : Char → Prop} [DecidablePred p] {o : Option Char}
    (h : (o.all fun c => decide (p c)) = true) : ∀ c, o = some c → p c := by
  rintro c rfl
  exact of_decide_eq_true h

/-- Induction over a text as separators and runs of name characters. -/
theorem runs_induction {motive : List Char → Prop} (nil : motive [])
    (sep : ∀ c s, isNameChar c = false → motive s → motive (c :: s))
    (run : ∀ w s, w ≠ [] → (∀ c ∈ w, isNameChar c = true) →
      (∀ c, s.head? = some c → isNameChar c = false) → motive s → motive (w ++ s))
    (s : List Char) : motive s := by
  induction hn : s.length using Nat.strongRecOn generalizing s with
  | ind n ih =>
    cases s with
    | nil => exact nil
    | cons first s =>
      cases hc : isNameChar first with
      | false => exact sep first s hc (ih s.length (by simp [← hn]) s rfl)
      | true =>
        have hsplit := List.takeWhile_append_dropWhile (p := isNameChar) (l := first :: s)
        have hne : (first :: s).takeWhile isNameChar ≠ [] := by
          rw [List.takeWhile_cons_of_pos hc]
          exact List.cons_ne_nil _ _
        have hlen := congrArg List.length hsplit
        have hpos := List.length_pos_iff.2 hne
        rw [List.length_append] at hlen
        rw [← hsplit]
        refine run _ _ hne (fun c => List.mem_takeWhile_imp) (fun c hhead => ?_)
          (ih _ (by omega) _ rfl)
        have hnot := List.head?_dropWhile_not isNameChar (first :: s)
        rw [hhead] at hnot
        exact hnot

/-- A text without symbols that begins and ends with a separator. -/
def IsMark (s : List Char) : Prop :=
  Plain s ∧ s.head?.any (!isNameChar ·) = true ∧ s.getLast?.any (!isNameChar ·) = true

instance (s : List Char) : Decidable (IsMark s) := inferInstanceAs (Decidable (_ ∧ _ ∧ _))

theorem IsMark.of_head? {s : List Char} (h : IsMark s) {c : Char} (hc : s.head? = some c) :
    isNameChar c = false := by
  simpa [hc] using h.2.1

theorem IsMark.of_getLast? {s : List Char} (h : IsMark s) {c : Char} (hc : s.getLast? = some c) :
    isNameChar c = false := by
  simpa [hc] using h.2.2

theorem IsMark.ne_nil {s : List Char} (h : IsMark s) : s ≠ [] := by
  rintro rfl
  cases h.2.1

/-- No run of name characters reaches from `s` into `t`. -/
def Cut (s t : List Char) : Prop :=
  ∀ a b, s.getLast? = some a → t.head? = some b → isNameChar a = false ∨ isNameChar b = false

theorem Cut.of_head {s t : List Char} (h : ∀ b, t.head? = some b → isNameChar b = false) :
    Cut s t := fun _ b _ hb => .inr (h b hb)

theorem Cut.of_last {s t : List Char} (h : ∀ a, s.getLast? = some a → isNameChar a = false) :
    Cut s t := fun a _ ha _ => .inl (h a ha)

theorem Cut.of_append {p s t : List Char} (h : Cut (p ++ s) t) : Cut s t := by
  intro a b ha hb
  refine h a b ?_ hb
  rw [List.getLast?_append, ha, Option.some_or]

theorem isNameChar_of_isDigit {c : Char} (h : c.isDigit = true) : isNameChar c = true := by
  have hnot : ∀ c ∈ " \t\n\r\x7b\x7d()[]<>,.-*".toList, c.isDigit = false :=
    forall_mem (by decide)
  have hword : c ∉ " \t\n\r\x7b\x7d()[]<>,.-*".toList := fun hc => by
    rw [hnot c hc] at h
    cases h
  simp only [isNameChar, Token.isWordChar, isBlank_of_isDigit h]
  simpa [and_assoc] using hword

theorem isNameChar_of_isNumbered {mark w : List Char} (hmark : ∀ c ∈ mark, isNameChar c = true)
    (h : Token.isNumbered mark w = true) {c : Char} (hc : c ∈ w) : isNameChar c = true := by
  simp only [Token.isNumbered, Bool.and_eq_true, List.isPrefixOf_iff_prefix] at h
  obtain ⟨⟨⟨digits, rfl⟩, -⟩, hdigits⟩ := h
  rw [List.drop_left, List.all_eq_true] at hdigits
  rcases List.mem_append.1 hc with hc | hc
  · exact hmark c hc
  · exact isNameChar_of_isDigit (hdigits c hc)

end Text

open Text (isNameChar Cut Plain runs_induction)

/-! ### Register symbols -/

namespace Register

theorem isNameChar_of_mem (r : Register) {c : Char} (hc : c ∈ r.1) : isNameChar c = true :=
  Text.isNameChar_of_isNumbered (Text.forall_mem (by decide)) r.2 hc

theorem exists_cons (r : Register) : ∃ w, r.1 = 'r' :: w ∧ '$' ∈ w := by
  have h := r.2
  simp only [Token.isNumbered, Bool.and_eq_true, List.isPrefixOf_iff_prefix] at h
  obtain ⟨⟨⟨digits, hw⟩, -⟩, -⟩ := h
  exact ⟨"eg_$".toList ++ digits, hw.symm, by simp⟩

theorem ne_nil (r : Register) : r.1 ≠ [] := by
  obtain ⟨w, hw, -⟩ := r.exists_cons
  rw [hw]
  exact List.cons_ne_nil _ _

theorem dollar_mem (r : Register) : '$' ∈ r.1 := by
  obtain ⟨w, hw, hdollar⟩ := r.exists_cons
  rw [hw]
  exact List.mem_cons_of_mem _ hdollar

theorem not_mem (r : Register) {c : Char} (hmark : c ∉ "reg_$".toList)
    (hdigit : c.isDigit = false) : c ∉ r.1 := by
  intro hc
  have h := r.2
  simp only [Token.isNumbered, Bool.and_eq_true, List.isPrefixOf_iff_prefix] at h
  obtain ⟨⟨⟨digits, hw⟩, -⟩, hdigits⟩ := h
  rw [← hw, List.drop_left, List.all_eq_true] at hdigits
  rw [← hw] at hc
  rcases List.mem_append.1 hc with hc | hc
  · exact hmark hc
  · rw [hdigits c hc] at hdigit
    cases hdigit

end Register

namespace Renaming

/-- A run of name characters renamed. -/
def run (ρ : Renaming) (w : List Char) : List Char :=
  if h : Token.isNumbered "reg_$".toList w = true then (ρ ⟨w, h⟩).1 else w

/-- The run of name characters that a text begins with, and what follows it, renamed. -/
def parts (ρ : Renaming) : List Char → List Char × List Char
  | [] => ([], [])
  | c :: s =>
    let (w, rest) := parts ρ s
    if isNameChar c then (c :: w, rest) else ([], c :: (ρ.run w ++ rest))

/-- A text renamed. -/
def chars (ρ : Renaming) (s : List Char) : List Char := ρ.run (ρ.parts s).1 ++ (ρ.parts s).2

/-- A string renamed. -/
def text (ρ : Renaming) (s : String) : String := String.ofList (ρ.chars s.toList)

variable (ρ : Renaming)

/-! ### Runs -/

theorem run_register (r : Register) : ρ.run r.1 = (ρ r).1 := dif_pos r.2

theorem run_of_not_register {w : List Char} (h : Token.isNumbered "reg_$".toList w = false) :
    ρ.run w = w := by
  rw [run, dif_neg (by rw [h]; decide)]

theorem run_nil : ρ.run [] = [] := ρ.run_of_not_register rfl

theorem run_cases (w : List Char) :
    (∃ r : Register, w = r.1 ∧ ρ.run w = (ρ r).1) ∨
      Token.isNumbered "reg_$".toList w = false ∧ ρ.run w = w := by
  cases h : Token.isNumbered "reg_$".toList w with
  | true => exact .inl ⟨⟨w, h⟩, rfl, dif_pos h⟩
  | false => exact .inr ⟨rfl, ρ.run_of_not_register h⟩

theorem isNameChar_of_mem_run {w : List Char} (hw : ∀ c ∈ w, isNameChar c = true) {c : Char}
    (hc : c ∈ ρ.run w) : isNameChar c = true := by
  rcases ρ.run_cases w with ⟨r, rfl, hrun⟩ | ⟨-, hrun⟩
  · rw [hrun] at hc
    exact (ρ r).isNameChar_of_mem hc
  · rw [hrun] at hc
    exact hw c hc

theorem run_ne_nil {w : List Char} (hw : w ≠ []) : ρ.run w ≠ [] := by
  rcases ρ.run_cases w with ⟨r, rfl, hrun⟩ | ⟨-, hrun⟩
  · rw [hrun]
    exact (ρ r).ne_nil
  · rwa [hrun]

theorem symm_run (w : List Char) : Renaming.run ρ.symm (ρ.run w) = w := by
  rcases ρ.run_cases w with ⟨r, rfl, hrun⟩ | ⟨hnot, hrun⟩
  · rw [hrun, run_register, Equiv.symm_apply_apply]
  · rw [hrun, run_of_not_register _ hnot]

/-! ### Texts -/

theorem chars_nil : ρ.chars [] = [] := ρ.run_nil.symm ▸ rfl

theorem chars_cons_of_sep {c : Char} (h : isNameChar c = false) (s : List Char) :
    ρ.chars (c :: s) = c :: ρ.chars s := by
  simp only [chars, parts, h, Bool.false_eq_true, if_false, run_nil, List.nil_append]

theorem parts_append_run {w s : List Char} (hw : ∀ c ∈ w, isNameChar c = true)
    (hs : ∀ c, s.head? = some c → isNameChar c = false) :
    ρ.parts (w ++ s) = (w, ρ.chars s) := by
  induction w with
  | nil =>
    cases s with
    | nil => rw [List.nil_append, chars_nil, parts]
    | cons c s =>
      have hc := hs c rfl
      simp only [List.nil_append, chars, parts, hc, Bool.false_eq_true, if_false, run_nil]
  | cons c w ih =>
    have hc := hw c List.mem_cons_self
    rw [List.cons_append, parts, ih fun d hd => hw d (List.mem_cons_of_mem c hd)]
    simp only [hc, if_true]

theorem chars_append_run {w s : List Char} (hw : ∀ c ∈ w, isNameChar c = true)
    (hs : ∀ c, s.head? = some c → isNameChar c = false) :
    ρ.chars (w ++ s) = ρ.run w ++ ρ.chars s := by
  rw [chars, parts_append_run ρ hw hs]

theorem chars_run {w : List Char} (hw : ∀ c ∈ w, isNameChar c = true) : ρ.chars w = ρ.run w := by
  have := ρ.chars_append_run (s := []) hw (by simp)
  simpa [chars_nil] using this

/-- **A text is renamed part by part.** -/
theorem chars_append {s t : List Char} (h : Cut s t) :
    ρ.chars (s ++ t) = ρ.chars s ++ ρ.chars t := by
  induction s using runs_induction with
  | nil => rw [chars_nil]; rfl
  | sep c s hc ih =>
    rw [List.cons_append, chars_cons_of_sep ρ hc, chars_cons_of_sep ρ hc, List.cons_append]
    by_cases hs : s = []
    · rw [hs, chars_nil]; rfl
    · rw [ih (h.of_append (p := [c]))]
  | run w s hne hw hs ih =>
    rw [List.append_assoc, chars_append_run ρ hw hs, List.append_assoc]
    by_cases hs' : s = []
    · subst hs'
      rw [List.append_nil] at h
      rw [List.nil_append, chars_nil, List.nil_append, chars_append_run ρ hw]
      intro b hb
      refine (h _ b (List.getLast?_eq_some_getLast hne) hb).resolve_left ?_
      rw [hw _ (List.getLast_mem hne)]
      decide
    · rw [← ih (h.of_append), chars_append_run ρ hw]
      intro c hc
      obtain ⟨d, s, rfl⟩ := List.exists_cons_of_ne_nil hs'
      exact hs c hc

/-! ### Cutting texts -/

section Cutting

variable {p : Char → Bool} (s : List Char)

theorem takeWhile_chars (hp : ∀ c, isNameChar c = true → p c = true) :
    (ρ.chars s).takeWhile p = ρ.chars (s.takeWhile p) := by
  induction s using runs_induction with
  | nil => rw [chars_nil, List.takeWhile_nil, chars_nil]
  | sep c s hc ih =>
    rw [chars_cons_of_sep ρ hc, List.takeWhile_cons, List.takeWhile_cons]
    split
    · rw [ih, chars_cons_of_sep ρ hc]
    · rw [chars_nil]
  | run w s _ hw hs ih =>
    have hs' : ∀ c, (s.takeWhile p).head? = some c → isNameChar c = false := by
      intro c hc
      cases s with
      | nil => cases hc
      | cons d s =>
        rw [List.takeWhile_cons] at hc
        split at hc
        · exact hs c hc
        · cases hc
    rw [chars_append_run ρ hw hs,
      List.takeWhile_append_of_pos fun c hc => hp c (ρ.isNameChar_of_mem_run hw hc),
      List.takeWhile_append_of_pos fun c hc => hp c (hw c hc), ih, chars_append_run ρ hw hs']

theorem dropWhile_chars (hp : ∀ c, isNameChar c = true → p c = true) :
    (ρ.chars s).dropWhile p = ρ.chars (s.dropWhile p) := by
  induction s using runs_induction with
  | nil => rw [chars_nil, List.dropWhile_nil, chars_nil]
  | sep c s hc ih =>
    rw [chars_cons_of_sep ρ hc, List.dropWhile_cons, List.dropWhile_cons]
    split
    · exact ih
    · rw [chars_cons_of_sep ρ hc]
  | run w s _ hw hs ih =>
    rw [chars_append_run ρ hw hs,
      List.dropWhile_append_of_pos fun c hc => hp c (ρ.isNameChar_of_mem_run hw hc),
      List.dropWhile_append_of_pos fun c hc => hp c (hw c hc), ih]

theorem exists_cons_run {w : List Char} (hne : w ≠ []) (hw : ∀ c ∈ w, isNameChar c = true) :
    ∃ c w', ρ.run w = c :: w' ∧ isNameChar c = true := by
  obtain ⟨c, w', hcons⟩ := List.exists_cons_of_ne_nil (ρ.run_ne_nil hne)
  exact ⟨c, w', hcons, ρ.isNameChar_of_mem_run hw (hcons ▸ List.mem_cons_self)⟩

theorem dropWhile_chars_of_sep (hp : ∀ c, p c = true → isNameChar c = false) :
    (ρ.chars s).dropWhile p = ρ.chars (s.dropWhile p) := by
  induction s using runs_induction with
  | nil => rw [chars_nil, List.dropWhile_nil, chars_nil]
  | sep c s hc ih =>
    rw [chars_cons_of_sep ρ hc, List.dropWhile_cons, List.dropWhile_cons]
    split
    · exact ih
    · rw [chars_cons_of_sep ρ hc]
  | run w s hne hw hs ih =>
    have hnot {c : Char} (hc : isNameChar c = true) : ¬p c = true := fun h => by
      rw [hp c h] at hc
      cases hc
    obtain ⟨c, w', hcons, hc⟩ := ρ.exists_cons_run hne hw
    obtain ⟨d, w, rfl⟩ := List.exists_cons_of_ne_nil hne
    rw [chars_append_run ρ hw hs, hcons, List.cons_append, List.dropWhile_cons_of_neg (hnot hc),
      List.cons_append, List.dropWhile_cons_of_neg (hnot (hw d List.mem_cons_self)),
      ← List.cons_append, ← hcons, ← List.cons_append, chars_append_run ρ hw hs]

theorem takeWhile_chars_of_sep (hp : ∀ c, p c = true → isNameChar c = false) :
    (ρ.chars s).takeWhile p = s.takeWhile p := by
  induction s using runs_induction with
  | nil => rw [chars_nil]
  | sep c s hc ih =>
    rw [chars_cons_of_sep ρ hc, List.takeWhile_cons, List.takeWhile_cons, ih]
  | run w s hne hw hs ih =>
    have hnot {c : Char} (hc : isNameChar c = true) : ¬p c = true := fun h => by
      rw [hp c h] at hc
      cases hc
    obtain ⟨c, w', hcons, hc⟩ := ρ.exists_cons_run hne hw
    obtain ⟨d, w, rfl⟩ := List.exists_cons_of_ne_nil hne
    rw [chars_append_run ρ hw hs, hcons, List.cons_append, List.takeWhile_cons_of_neg (hnot hc),
      List.cons_append, List.takeWhile_cons_of_neg (hnot (hw d List.mem_cons_self))]

end Cutting

/-! ### Undoing a renaming -/

/-- The head of a renamed text is a separator only if it was that separator. -/
theorem isNameChar_head?_chars {s : List Char} (h : ∀ c, s.head? = some c → isNameChar c = false)
    {c : Char} (hc : (ρ.chars s).head? = some c) : isNameChar c = false := by
  cases s with
  | nil =>
    rw [chars_nil] at hc
    cases hc
  | cons d s =>
    rw [chars_cons_of_sep ρ (h d rfl)] at hc
    cases hc
    exact h _ rfl

/-- **A renaming is undone by its inverse.** -/
theorem symm_chars (s : List Char) : Renaming.chars ρ.symm (ρ.chars s) = s := by
  induction s using runs_induction with
  | nil => rw [chars_nil, chars_nil]
  | sep c s hc ih => rw [chars_cons_of_sep ρ hc, chars_cons_of_sep _ hc, ih]
  | run w s _ hw hs ih =>
    rw [chars_append_run ρ hw hs, chars_append_run _ (fun c => ρ.isNameChar_of_mem_run hw)
      fun c => ρ.isNameChar_head?_chars hs, symm_run, ih]

theorem chars_injective : Function.Injective ρ.chars :=
  Function.LeftInverse.injective ρ.symm_chars

/-! ### What stays -/

theorem chars_of_plain {s : List Char} (h : Plain s) : ρ.chars s = s := by
  induction s using runs_induction with
  | nil => exact ρ.chars_nil
  | sep c s hc ih =>
    rw [chars_cons_of_sep ρ hc, ih fun hmem => h (List.mem_cons_of_mem c hmem)]
  | run w s _ hw hs ih =>
    rw [chars_append_run ρ hw hs, ih fun hmem => h (List.mem_append_right w hmem)]
    rcases ρ.run_cases w with ⟨r, rfl, -⟩ | ⟨-, hrun⟩
    · exact absurd (List.mem_append_left s r.dollar_mem) h
    · rw [hrun]

theorem chars_of_seps {s : List Char} (h : ∀ c ∈ s, isNameChar c = false) : ρ.chars s = s := by
  induction s with
  | nil => exact ρ.chars_nil
  | cons c s ih =>
    rw [chars_cons_of_sep ρ (h c List.mem_cons_self),
      ih fun d hd => h d (List.mem_cons_of_mem c hd)]

theorem chars_eq_iff_of_plain {s t : List Char} (h : Plain t) : ρ.chars s = t ↔ s = t := by
  conv_lhs => rw [← ρ.chars_of_plain h]
  exact ρ.chars_injective.eq_iff

/-! ### What separators see -/

theorem getLast?_chars {c : Char} (hc : isNameChar c = false) {s : List Char} :
    (ρ.chars s).getLast? = some c ↔ s.getLast? = some c := by
  have hforth (ρ : Renaming) {s : List Char} (h : s.getLast? = some c) :
      (ρ.chars s).getLast? = some c := by
    obtain ⟨s', rfl⟩ := List.getLast?_eq_some_iff.1 h
    rw [chars_append ρ (.of_head fun b hb => by cases hb; exact hc), chars_cons_of_sep ρ hc]
    simp [chars_nil]
  refine ⟨fun h => ?_, hforth ρ⟩
  rw [← symm_chars ρ s]
  exact hforth ρ.symm h

theorem head?_chars {c : Char} (hc : isNameChar c = false) {s : List Char} :
    (ρ.chars s).head? = some c ↔ s.head? = some c := by
  have hforth (ρ : Renaming) {s : List Char} (h : s.head? = some c) :
      (ρ.chars s).head? = some c := by
    obtain ⟨s', rfl⟩ := List.head?_eq_some_iff.1 h
    rw [chars_cons_of_sep ρ hc, List.head?_cons]
  refine ⟨fun h => ?_, hforth ρ⟩
  rw [← symm_chars ρ s]
  exact hforth ρ.symm h

theorem mem_chars {c : Char} (hc : isNameChar c = false) {s : List Char} :
    c ∈ ρ.chars s ↔ c ∈ s := by
  have hforth (ρ : Renaming) {s : List Char} (h : c ∈ s) : c ∈ ρ.chars s := by
    obtain ⟨p, q, rfl⟩ := List.append_of_mem h
    rw [chars_append ρ (.of_head fun b hb => by cases hb; exact hc), chars_cons_of_sep ρ hc]
    simp
  refine ⟨fun h => ?_, hforth ρ⟩
  rw [← symm_chars ρ s]
  exact hforth ρ.symm h

theorem chars_eq_nil_iff {s : List Char} : ρ.chars s = [] ↔ s = [] :=
  ρ.chars_eq_iff_of_plain (by decide)

theorem isNameChar_of_isBlank {c : Char} (h : Text.isBlank c = true) : isNameChar c = false := by
  simp [isNameChar, h]

theorem trimEnd_chars (s : List Char) : Text.trimEnd (ρ.chars s) = ρ.chars (Text.trimEnd s) := by
  have hdrop (s : List Char) : Text.trimEnd s = s.rdropWhile Text.isBlank := rfl
  obtain ⟨blanks, hs, hblanks⟩ := Text.trimEnd_append s
  have hseps : ∀ c ∈ blanks, isNameChar c = false :=
    fun c hc => isNameChar_of_isBlank (hblanks c hc)
  conv_lhs => rw [hs]
  rw [chars_append ρ (.of_head fun c hc => hseps c (List.mem_of_mem_head? hc)),
    chars_of_seps ρ hseps, hdrop, Text.rdropWhile_append _ hblanks, List.rdropWhile_eq_self_iff]
  intro hne hblank
  -- the last character would be a blank before the renaming as well
  obtain ⟨c, hc⟩ : ∃ c, (ρ.chars (Text.trimEnd s)).getLast hne = c := ⟨_, rfl⟩
  have hlast : (s.rdropWhile Text.isBlank).getLast? = some c :=
    (ρ.getLast?_chars (isNameChar_of_isBlank (hc ▸ hblank))).1
      (hc ▸ List.getLast?_eq_some_getLast hne)
  have hne' : s.rdropWhile Text.isBlank ≠ [] := by
    rintro hnil
    rw [hnil] at hlast
    cases hlast
  rw [List.getLast?_eq_some_getLast hne', Option.some.injEq] at hlast
  exact List.rdropWhile_last_not Text.isBlank s hne' (by rw [hlast, ← hc, hblank])

/-- **Blanks are trimmed off a text as well before as after the renaming.** -/
theorem trim_chars (s : List Char) : Text.trim (ρ.chars s) = ρ.chars (Text.trim s) := by
  rw [Text.trim, Text.trimStart, dropWhile_chars_of_sep ρ s fun c => isNameChar_of_isBlank]
  exact trimEnd_chars ρ _

/-! ### Symbols and marks -/

theorem run_isNumbered (w : List Char) :
    Token.isNumbered "reg_$".toList (ρ.run w) = Token.isNumbered "reg_$".toList w := by
  rcases ρ.run_cases w with ⟨r, rfl, hrun⟩ | ⟨-, hrun⟩
  · rw [hrun, r.2, (ρ r).2]
  · rw [hrun]

theorem isNumbered_chars (s : List Char) :
    Token.isNumbered "reg_$".toList (ρ.chars s) = Token.isNumbered "reg_$".toList s := by
  have hforth (ρ : Renaming) {s : List Char} (h : Token.isNumbered "reg_$".toList s = true) :
      Token.isNumbered "reg_$".toList (ρ.chars s) = true := by
    rw [chars_run ρ fun c => Register.isNameChar_of_mem ⟨s, h⟩, run_isNumbered, h]
  refine Bool.eq_iff_iff.2 ⟨fun h => ?_, hforth ρ⟩
  rw [← symm_chars ρ s]
  exact hforth ρ.symm h

theorem chars_append_of_head {mark s : List Char} {c : Char} (hne : mark.head? = some c)
    (hc : c ≠ 'r') (hmark : ∀ c ∈ mark, isNameChar c = true) :
    ∃ s', ρ.chars (mark ++ s) = mark ++ s' := by
  have hsplit := List.takeWhile_append_dropWhile (p := isNameChar) (l := s)
  have hname : ∀ c ∈ mark ++ s.takeWhile isNameChar, isNameChar c = true := fun c hc =>
    (List.mem_append.1 hc).elim (hmark c) List.mem_takeWhile_imp
  have hrun : ρ.run (mark ++ s.takeWhile isNameChar) = mark ++ s.takeWhile isNameChar := by
    rcases ρ.run_cases (mark ++ s.takeWhile isNameChar) with ⟨r, hr, -⟩ | ⟨-, hrun⟩
    · obtain ⟨w, hw, -⟩ := r.exists_cons
      obtain ⟨mark', rfl⟩ := List.head?_eq_some_iff.1 hne
      rw [hw, List.cons_append] at hr
      exact absurd (List.cons.inj hr).1 hc
    · exact hrun
  refine ⟨s.takeWhile isNameChar ++ ρ.chars (s.dropWhile isNameChar), ?_⟩
  conv_lhs => rw [← hsplit]
  rw [← List.append_assoc, chars_append_run ρ hname, hrun, List.append_assoc]
  intro c hc
  have hnot := List.head?_dropWhile_not isNameChar s
  rw [hc] at hnot
  exact hnot

theorem isPrefixOf_chars {mark : List Char} {c : Char} (hne : mark.head? = some c) (hc : c ≠ 'r')
    (hmark : ∀ c ∈ mark, isNameChar c = true) (s : List Char) :
    mark.isPrefixOf (ρ.chars s) = mark.isPrefixOf s := by
  have hforth (ρ : Renaming) {s : List Char} (h : mark.isPrefixOf s = true) :
      mark.isPrefixOf (ρ.chars s) = true := by
    obtain ⟨s, rfl⟩ := List.isPrefixOf_iff_prefix.1 h
    obtain ⟨s', hs'⟩ := ρ.chars_append_of_head (s := s) hne hc hmark
    rw [hs', List.isPrefixOf_iff_prefix]
    exact List.prefix_append mark s'
  refine Bool.eq_iff_iff.2 ⟨fun h => ?_, hforth ρ⟩
  rw [← symm_chars ρ s]
  exact hforth ρ.symm h

theorem after?_chars {mark : List Char} (hplain : Plain mark)
    (hlast : ∀ c, mark.getLast? = some c → isNameChar c = false) (s : List Char) :
    Text.after? mark (ρ.chars s) = (Text.after? mark s).map ρ.chars := by
  have hforth (ρ : Renaming) {s rest : List Char} (h : Text.after? mark s = some rest) :
      Text.after? mark (ρ.chars s) = some (ρ.chars rest) := by
    rw [Text.after?_eq_some] at h ⊢
    rw [h, chars_append ρ (.of_last hlast), chars_of_plain ρ hplain]
  cases h : Text.after? mark s with
  | some rest => exact hforth ρ h
  | none =>
    cases h' : Text.after? mark (ρ.chars s) with
    | none => rfl
    | some rest =>
      have := hforth ρ.symm h'
      rw [symm_chars, h] at this
      cases this

/-! ### Pieces -/

theorem pieces_chars {p : Char → Bool} (hp : ∀ c, p c = true → isNameChar c = false)
    (s : List Char) : Text.pieces p (ρ.chars s) = (Text.pieces p s).map ρ.chars := by
  induction hn : s.length using Nat.strongRecOn generalizing s with
  | ind n ih =>
    have hsplit := List.takeWhile_append_dropWhile (p := fun c => !p c) (l := s)
    have hfirst : ∀ c ∈ s.takeWhile fun c => !p c, p c = false := fun c hc => by
      simpa using List.mem_takeWhile_imp hc
    generalize s.takeWhile (fun c => !p c) = first at hsplit hfirst
    have hpiece (t : List Char) (h : ∀ c ∈ t, p c = false) :
        Text.pieces p (ρ.chars t) = [ρ.chars t] :=
      Text.pieces_of_not_sep fun c hc => by
        cases hpc : p c with
        | false => rfl
        | true => rw [← hpc, h c ((ρ.mem_chars (hp c hpc)).1 hc)]
    -- the text is one piece, or the first piece ends at a separator, which stays one
    cases hrest : s.dropWhile fun c => !p c with
    | nil =>
      rw [hrest, List.append_nil] at hsplit
      rw [← hsplit, hpiece _ hfirst, Text.pieces_of_not_sep hfirst, List.map_singleton]
    | cons c rest =>
      have hc : p c = true := by
        have hnot := List.head?_dropWhile_not (fun c => !p c) s
        rw [hrest] at hnot
        simpa using hnot
      rw [hrest] at hsplit
      have hlen : rest.length < n := by
        have := congrArg List.length hsplit
        rw [List.length_append, List.length_cons] at this
        omega
      rw [← hsplit, chars_append ρ (.of_head fun b hb => by cases hb; exact hp c hc),
        chars_cons_of_sep ρ (hp c hc), Text.pieces_append_sep hc, Text.pieces_append_sep hc,
        hpiece _ hfirst, Text.pieces_of_not_sep hfirst, ih _ hlen rest rfl]
      rfl

/-! ### Strings -/

@[simp]
theorem toList_text (s : String) : (ρ.text s).toList = ρ.chars s.toList := by
  rw [text, String.toList_ofList]

theorem text_ofList (s : List Char) : ρ.text (String.ofList s) = String.ofList (ρ.chars s) := by
  rw [text, String.toList_ofList]

theorem symm_text (s : String) : Renaming.text ρ.symm (ρ.text s) = s := by
  rw [text, toList_text, symm_chars, String.ofList_toList]

theorem text_symm (s : String) : ρ.text (Renaming.text ρ.symm s) = s := symm_text ρ.symm s

theorem text_injective : Function.Injective ρ.text := Function.LeftInverse.injective ρ.symm_text

theorem text_of_plain {s : String} (h : Plain s.toList) : ρ.text s = s := by
  rw [text, chars_of_plain ρ h, String.ofList_toList]

theorem text_of_seps {s : String} (h : ∀ c ∈ s.toList, isNameChar c = false) : ρ.text s = s := by
  rw [text, chars_of_seps ρ h, String.ofList_toList]

theorem text_eq_iff_of_plain {s t : String} (h : Plain t.toList) : ρ.text s = t ↔ s = t := by
  conv_lhs => rw [← ρ.text_of_plain h]
  exact ρ.text_injective.eq_iff

theorem text_append {s t : String} (h : Cut s.toList t.toList) :
    ρ.text (s ++ t) = ρ.text s ++ ρ.text t := by
  rw [text, String.toList_append, chars_append ρ h, String.ofList_append, text, text]

theorem text_between {mark : String} (h : Text.IsMark mark.toList) (s t : String) :
    ρ.text (s ++ mark ++ t) = ρ.text s ++ mark ++ ρ.text t := by
  rw [ρ.text_append, ρ.text_append (.of_head fun c => h.of_head?), ρ.text_of_plain h.1]
  refine .of_last fun c hc => h.of_getLast? ?_
  rwa [String.toList_append, List.getLast?_append_of_ne_nil _ h.ne_nil] at hc

theorem text_append_mark {mark : String} (h : Text.IsMark mark.toList) (s : String) :
    ρ.text (s ++ mark) = ρ.text s ++ mark := by
  rw [ρ.text_append (.of_head fun c => h.of_head?), ρ.text_of_plain h.1]

theorem text_mark_append {mark : String} (h : Text.IsMark mark.toList) (s : String) :
    ρ.text (mark ++ s) = mark ++ ρ.text s := by
  rw [ρ.text_append (.of_last fun c => h.of_getLast?), ρ.text_of_plain h.1]

theorem trimmed_text (s : String) : Text.trimmed (ρ.text s) = ρ.text (Text.trimmed s) := by
  rw [Text.trimmed, toList_text, trim_chars, Text.trimmed, text_ofList]

end Renaming

end TestSynth
