import TestSynth.TypeSpelling
import TestSynth.Proofs.PointerLevels
import TestSynth.Proofs.Renaming.Text

/-!
# Renamed spellings of types

A renaming leaves stars, blanks and qualifiers as they are, so the spelling of a type is cut into
qualifiers, base and suffix in the same places before and after it.

* `Renaming.splitSuffix_chars` : base and suffix.
* `Renaming.splitQualifiers_chars` : the qualifiers of a base.
* `Renaming.pointerDepth_text`, `Renaming.elementType?_text` : levels of pointers, and what they
  store.
* `Renaming.isVoidLike_text` : no symbol is `void`.
-/

namespace TestSynth

open Text (isNameChar Cut Plain runs_induction)
open TypeSpelling

namespace Renaming

/-! ### Suffixes -/

/-- What a renaming keeps forwards it keeps backwards, so a function that it keeps where there is a
result it keeps where there is none. -/
theorem map_of_some {f : List Char → Option (List Char)} {g : Renaming → List Char → List Char}
    (hsymm : ∀ ρ s, g (Equiv.symm ρ) (g ρ s) = s)
    (h : ∀ (ρ : Renaming) (s x : List Char), f s = some x → f (g ρ s) = some (g ρ x))
    (ρ : Renaming) (s : List Char) : f (g ρ s) = (f s).map (g ρ) := by
  cases hs : f s with
  | some x => exact h ρ s x hs
  | none =>
    cases hs' : f (g ρ s) with
    | none => rfl
    | some x =>
      have := h ρ.symm _ x hs'
      rw [hsymm, hs] at this
      cases this

variable (ρ : Renaming)

/-- A reversed text renamed. -/
def reversed (s : List Char) : List Char := (ρ.chars s.reverse).reverse

theorem reversed_reverse (s : List Char) : ρ.reversed s.reverse = (ρ.chars s).reverse := by
  rw [reversed, List.reverse_reverse]

theorem reversed_nil : ρ.reversed [] = [] := by
  rw [reversed, List.reverse_nil, chars_nil, List.reverse_nil]

theorem symm_reversed (s : List Char) : Renaming.reversed ρ.symm (ρ.reversed s) = s := by
  rw [reversed, reversed, List.reverse_reverse, symm_chars, List.reverse_reverse]

theorem reversed_append {s t : List Char} (h : Cut t.reverse s.reverse) :
    ρ.reversed (s ++ t) = ρ.reversed s ++ ρ.reversed t := by
  rw [reversed, List.reverse_append, chars_append ρ h, List.reverse_append, reversed, reversed]

theorem reversed_cons_of_sep {c : Char} (hc : isNameChar c = false) (s : List Char) :
    ρ.reversed (c :: s) = c :: ρ.reversed s := by
  have h := ρ.reversed_append (s := [c]) (t := s) (.of_head fun b hb => by cases hb; exact hc)
  rw [List.singleton_append] at h
  rw [h, reversed, List.reverse_singleton, chars_of_seps ρ (by simpa using hc)]
  rfl

/-- A star or a blank: what the suffix of a type is made of, but for qualifiers. -/
def isFiller (c : Char) : Bool := c == '*' || Text.isBlank c

theorem isNameChar_of_isFiller {c : Char} (h : isFiller c = true) : isNameChar c = false := by
  simp only [isFiller, Bool.or_eq_true, beq_iff_eq] at h
  rcases h with rfl | h
  · decide
  · exact isNameChar_of_isBlank h

theorem head?_reversed {c : Char} (hc : isNameChar c = false) {s : List Char} :
    (ρ.reversed s).head? = some c ↔ s.head? = some c := by
  rw [reversed, List.head?_reverse, getLast?_chars ρ hc, List.getLast?_reverse]

theorem dropWhile_reversed {p : Char → Bool} (hp : ∀ c, p c = true → isNameChar c = false)
    (s : List Char) : (ρ.reversed s).dropWhile p = ρ.reversed (s.dropWhile p) := by
  induction s with
  | nil => rw [reversed_nil, List.dropWhile_nil, reversed_nil]
  | cons c s ih =>
    cases hc : p c with
    | true => rw [reversed_cons_of_sep ρ (hp c hc), List.dropWhile_cons_of_pos hc, ih,
        List.dropWhile_cons_of_pos hc]
    | false =>
      rw [List.dropWhile_cons_of_neg (by simp [hc])]
      cases hs : ρ.reversed (c :: s) with
      | nil => rfl
      | cons d s' =>
        refine List.dropWhile_cons_of_neg fun hd => ?_
        have hhead := (ρ.head?_reversed (hp d hd) (s := c :: s)).1 (by rw [hs]; rfl)
        cases hhead
        rw [hc] at hd
        cases hd

theorem any_reversed {p : Char → Bool} (hp : ∀ c, p c = false → isNameChar c = false)
    (s : List Char) : (ρ.reversed s).any p = s.any p := by
  have hforth (ρ : Renaming) {s : List Char} (h : s.any p = false) :
      (ρ.reversed s).any p = false := by
    have hseps : ∀ c ∈ s.reverse, isNameChar c = false := fun c hc =>
      hp c (by simpa using List.any_eq_false.1 h c (List.mem_reverse.1 hc))
    rw [reversed, chars_of_seps ρ hseps, List.reverse_reverse, h]
  cases h : s.any p with
  | false => exact hforth ρ h
  | true =>
    by_contra hnot
    have := hforth ρ.symm (by simpa using hnot)
    rw [symm_reversed, h] at this
    cases this

theorem hasBase_reversed (s : List Char) : hasBase (ρ.reversed s) = hasBase s := by
  rw [hasBase, dropWhile_reversed ρ fun c => isNameChar_of_isBlank,
    dropWhile_reversed ρ fun c hc => isNameChar_of_isFiller (by simp [isFiller, hc]),
    any_reversed ρ fun c hc => isNameChar_of_isBlank (by simpa using hc), hasBase]

theorem beforeQualifier?_eq_some {r q rest : List Char} :
    beforeQualifier? r q = some rest ↔
      r = q.reverse ++ rest ∧ (∃ c, rest.head? = some c ∧ isFiller c = true) ∧
        hasBase rest = true := by
  unfold beforeQualifier?
  split
  · next c rest' hafter =>
    rw [Text.after?_eq_some] at hafter
    rw [Option.ite_none_right_eq_some, Bool.and_eq_true, hafter, Option.some.injEq]
    constructor
    · rintro ⟨⟨hc, hbase⟩, rfl⟩
      exact ⟨rfl, ⟨c, rfl, hc⟩, hbase⟩
    · rintro ⟨heq, ⟨c', hc', hfiller⟩, hbase⟩
      obtain rfl := List.append_cancel_left heq
      cases hc'
      exact ⟨⟨hfiller, hbase⟩, rfl⟩
  · next hnone =>
    refine iff_of_false nofun ?_
    rintro ⟨rfl, ⟨c, hc, -⟩, -⟩
    obtain ⟨rest, rfl⟩ := List.head?_eq_some_iff.1 hc
    exact hnone c rest (Text.after?_eq_some.2 rfl)

theorem findSome?_map {α β : Type} {f g : α → Option β} {k : β → β} {l : List α}
    (h : ∀ a ∈ l, f a = (g a).map k) : l.findSome? f = (l.findSome? g).map k := by
  induction l with
  | nil => rfl
  | cons a l ih =>
    rw [List.findSome?_cons, List.findSome?_cons, h a List.mem_cons_self,
      ih fun b hb => h b (List.mem_cons_of_mem a hb)]
    cases g a <;> rfl

theorem plain_of_mem_qualifiers {q : List Char} (hq : q ∈ qualifiers) : Plain q := by
  simp only [qualifiers, List.mem_cons, List.not_mem_nil, or_false] at hq
  rcases hq with rfl | rfl | rfl <;> decide

theorem beforeQualifier?_reversed {q : List Char} (hq : Plain q) (r : List Char) :
    beforeQualifier? (ρ.reversed r) q = (beforeQualifier? r q).map ρ.reversed := by
  refine map_of_some (f := fun r => beforeQualifier? r q) (g := reversed) symm_reversed
    (fun ρ r rest h => ?_) ρ r
  simp only [beforeQualifier?_eq_some] at h ⊢
  obtain ⟨rfl, ⟨c, hc, hfiller⟩, hbase⟩ := h
  have hcut : Cut rest.reverse q.reverse.reverse := .of_last fun b hb => by
    rw [List.getLast?_reverse, hc, Option.some.injEq] at hb
    exact hb ▸ isNameChar_of_isFiller hfiller
  refine ⟨?_, ⟨c, ?_, hfiller⟩, ?_⟩
  · rw [reversed_append ρ hcut, reversed_reverse, chars_of_plain ρ hq]
  · exact (ρ.head?_reversed (isNameChar_of_isFiller hfiller)).2 hc
  · rw [hasBase_reversed, hbase]

theorem beforeQualifiers?_reversed (r : List Char) :
    beforeQualifiers? (ρ.reversed r) = (beforeQualifiers? r).map ρ.reversed :=
  findSome?_map fun _ hq => ρ.beforeQualifier?_reversed (plain_of_mem_qualifiers hq) r

theorem exists_cons_reversed {c : Char} (hc : isFiller c = false) (s : List Char) :
    ∃ d s', ρ.reversed (c :: s) = d :: s' ∧ isFiller d = false := by
  cases hs : ρ.reversed (c :: s) with
  | nil =>
    rw [reversed, List.reverse_eq_nil_iff, chars_eq_nil_iff, List.reverse_eq_nil_iff] at hs
    cases hs
  | cons d s' =>
    refine ⟨d, s', rfl, ?_⟩
    cases hd : isFiller d with
    | false => rfl
    | true =>
      have hhead := (ρ.head?_reversed (isNameChar_of_isFiller hd) (s := c :: s)).1 (by rw [hs]; rfl)
      cases hhead
      rw [hc] at hd
      cases hd

theorem dropSuffix_of_filler {c : Char} (hc : isFiller c = true) (s : List Char) :
    dropSuffix (c :: s) = dropSuffix s := by
  rw [dropSuffix]
  exact if_pos hc

/-- Where a reversed text begins with no star or blank, only qualifiers are left to drop. -/
theorem dropSuffix_of_not_filler {c : Char} (hc : isFiller c = false) (s : List Char) :
    dropSuffix (c :: s) = ((beforeQualifiers? (c :: s)).map dropSuffix).getD (c :: s) := by
  rw [dropSuffix, if_neg (by rw [isFiller] at hc; rw [hc]; decide)]
  split
  · next rest h =>
    show dropSuffix rest = _
    rw [h]
    rfl
  · next h =>
    rw [h]
    rfl

theorem length_dropSuffix_le (r : List Char) : (dropSuffix r).length ≤ r.length := by
  fun_induction dropSuffix r with
  | case1 => exact Nat.le_refl _
  | case2 c rest _ ih => exact Nat.le_succ_of_le ih
  | case3 c rest _ rest' h _ ih => exact Nat.le_trans ih (Nat.le_of_lt (length_beforeQualifiers? h))
  | case4 c rest _ h => exact Nat.le_refl _

theorem dropSuffix_reversed (r : List Char) :
    dropSuffix (ρ.reversed r) = ρ.reversed (dropSuffix r) := by
  fun_induction dropSuffix r with
  | case1 => rw [reversed_nil, dropSuffix]
  | case2 c rest hc ih =>
    rw [reversed_cons_of_sep ρ (isNameChar_of_isFiller hc), dropSuffix_of_filler hc, ih]
  | case3 c rest hc rest' h _ ih =>
    obtain ⟨d, s', hs, hd⟩ := ρ.exists_cons_reversed (s := rest) (Bool.eq_false_iff.2 hc)
    have hbefore := ρ.beforeQualifiers?_reversed (c :: rest)
    rw [hs, h] at hbefore
    rw [hs, dropSuffix_of_not_filler hd, hbefore]
    exact ih
  | case4 c rest hc h =>
    obtain ⟨d, s', hs, hd⟩ := ρ.exists_cons_reversed (s := rest) (Bool.eq_false_iff.2 hc)
    have hbefore := ρ.beforeQualifiers?_reversed (c :: rest)
    rw [hs, h] at hbefore
    rw [hs, dropSuffix_of_not_filler hd, hbefore]
    rfl

/-- What is dropped of a reversed spelling ends in a star or a blank. -/
theorem exists_append_dropSuffix (r : List Char) :
    ∃ s, r = s ++ dropSuffix r ∧ ∀ c, s.getLast? = some c → isFiller c = true := by
  fun_induction dropSuffix r with
  | case1 => exact ⟨[], rfl, nofun⟩
  | case2 c rest hc ih =>
    obtain ⟨s, hs, hlast⟩ := ih
    refine ⟨c :: s, by rw [List.cons_append, ← hs], fun d hd => ?_⟩
    cases s with
    | nil => cases hd; exact hc
    | cons e s => exact hlast d hd
  | case3 c rest hc rest' h _ ih =>
    obtain ⟨s, hs, hlast⟩ := ih
    obtain ⟨q, -, hq⟩ := List.exists_of_findSome?_eq_some h
    obtain ⟨hrest, ⟨d, hd, hfiller⟩, -⟩ := beforeQualifier?_eq_some.1 hq
    refine ⟨q.reverse ++ s, by rw [hrest, List.append_assoc, ← hs], fun e he => ?_⟩
    cases s with
    | nil =>
      -- a qualifier stands behind a star or a blank, which is dropped as well
      obtain ⟨rest'', rfl⟩ := List.head?_eq_some_iff.1 hd
      rw [dropSuffix_of_filler hfiller] at hs
      have hlen := congrArg List.length hs
      have hle := length_dropSuffix_le rest''
      rw [List.nil_append, List.length_cons] at hlen
      omega
    | cons f s =>
      refine hlast e ?_
      rwa [List.getLast?_append_of_ne_nil _ (List.cons_ne_nil f s)] at he
  | case4 c rest hc h => exact ⟨[], rfl, nofun⟩

theorem splitSuffix_spec (s : List Char) :
    s = (splitSuffix s).1 ++ (splitSuffix s).2 ∧
      ∀ c, (splitSuffix s).2.head? = some c → isFiller c = true := by
  obtain ⟨t, ht, hlast⟩ := exists_append_dropSuffix s.reverse
  have hs : s = (splitSuffix s).1 ++ t.reverse := by
    have := congrArg List.reverse ht
    rwa [List.reverse_reverse, List.reverse_append] at this
  rw [snd_splitSuffix_of_append hs]
  refine ⟨hs, fun c hc => hlast c ?_⟩
  rwa [List.head?_reverse] at hc

/-- **A spelling is cut into base and suffix as well before as after the renaming.** -/
theorem splitSuffix_chars (s : List Char) :
    splitSuffix (ρ.chars s) = (ρ.chars (splitSuffix s).1, ρ.chars (splitSuffix s).2) := by
  obtain ⟨hs, hhead⟩ := splitSuffix_spec s
  have hbase : (splitSuffix (ρ.chars s)).1 = ρ.chars (splitSuffix s).1 := by
    show (dropSuffix (ρ.chars s).reverse).reverse = ρ.chars (dropSuffix s.reverse).reverse
    rw [← reversed_reverse, dropSuffix_reversed, reversed, List.reverse_reverse]
  refine Prod.ext hbase ?_
  show (ρ.chars s).drop (splitSuffix (ρ.chars s)).1.length = ρ.chars (splitSuffix s).2
  have hchars := congrArg ρ.chars hs
  rw [chars_append ρ (.of_head fun c hc => isNameChar_of_isFiller (hhead c hc))] at hchars
  rw [hbase, hchars, List.drop_left]

/-! ### Qualifiers -/

theorem afterQualifier?_eq_some {s q rest : List Char} :
    afterQualifier? s q = some rest ↔ ∃ t, s = q ++ ' ' :: t ∧ rest = Text.trimStart t := by
  unfold afterQualifier?
  split
  · next t hafter =>
    rw [Text.after?_eq_some] at hafter
    subst hafter
    constructor
    · intro h
      exact ⟨t, rfl, (Option.some.inj h).symm⟩
    · rintro ⟨t', ht', rfl⟩
      obtain ⟨-, rfl⟩ := List.cons.inj (List.append_cancel_left ht')
      rfl
  · next hnone =>
    refine iff_of_false nofun ?_
    rintro ⟨t, rfl, -⟩
    exact hnone t (Text.after?_eq_some.2 rfl)

theorem afterQualifier?_chars {q : List Char} (hq : Plain q) (s : List Char) :
    afterQualifier? (ρ.chars s) q = (afterQualifier? s q).map ρ.chars := by
  refine map_of_some (f := fun s => afterQualifier? s q) (g := chars) symm_chars
    (fun ρ s rest h => ?_) ρ s
  simp only [afterQualifier?_eq_some] at h ⊢
  obtain ⟨t, rfl, rfl⟩ := h
  have hspace : isNameChar ' ' = false := by decide
  refine ⟨ρ.chars t, ?_, ?_⟩
  · rw [chars_append ρ (.of_head fun b hb => by cases hb; exact hspace), chars_of_plain ρ hq,
      chars_cons_of_sep ρ hspace]
  · exact (ρ.dropWhile_chars_of_sep t fun c => isNameChar_of_isBlank).symm

theorem afterQualifiers?_chars (s : List Char) :
    afterQualifiers? (ρ.chars s) = (afterQualifiers? s).map ρ.chars :=
  findSome?_map fun _ hq => ρ.afterQualifier?_chars (plain_of_mem_qualifiers hq) s

theorem dropQualifiers_eq (s : List Char) :
    dropQualifiers s = ((afterQualifiers? s).map dropQualifiers).getD s := by
  rw [dropQualifiers]
  split
  · next rest h =>
    show dropQualifiers rest = _
    rw [h]
    rfl
  · next h =>
    rw [h]
    rfl

theorem dropQualifiers_chars (s : List Char) :
    dropQualifiers (ρ.chars s) = ρ.chars (dropQualifiers s) := by
  fun_induction dropQualifiers s with
  | case1 s rest h _ ih =>
    rw [dropQualifiers_eq, afterQualifiers?_chars, h]
    exact ih
  | case2 s h =>
    rw [dropQualifiers_eq, afterQualifiers?_chars, h]
    rfl

theorem exists_append_dropQualifiers (s : List Char) :
    ∃ q, s = q ++ dropQualifiers s ∧ ∀ c, q.getLast? = some c → isNameChar c = false := by
  fun_induction dropQualifiers s with
  | case1 s rest h _ ih =>
    obtain ⟨q', hrest, hlast⟩ := ih
    obtain ⟨q, -, hq⟩ := List.exists_of_findSome?_eq_some h
    obtain ⟨t, rfl, rfl⟩ := afterQualifier?_eq_some.1 hq
    refine ⟨q ++ (' ' :: t.takeWhile Text.isBlank) ++ q', ?_, fun c hc => ?_⟩
    · have ht : t = t.takeWhile Text.isBlank ++ (q' ++ dropQualifiers (Text.trimStart t)) := by
        rw [← hrest]
        exact List.takeWhile_append_dropWhile.symm
      rw [List.append_assoc, List.append_assoc, List.cons_append, ← ht]
    · rw [List.getLast?_append] at hc
      cases hq' : q'.getLast? with
      | some d =>
        rw [hq', Option.some_or] at hc
        cases hc
        exact hlast c hq'
      | none =>
        rw [hq', Option.none_or, List.getLast?_append_of_ne_nil _ (List.cons_ne_nil _ _)] at hc
        rcases List.mem_cons.1 (List.mem_of_getLast? hc) with rfl | hc
        · decide
        · exact isNameChar_of_isBlank (List.mem_takeWhile_imp hc)
  | case2 s h => exact ⟨[], rfl, nofun⟩

theorem splitQualifiers_spec (s : List Char) :
    s = (splitQualifiers s).1 ++ (splitQualifiers s).2 ∧
      ∀ c, (splitQualifiers s).1.getLast? = some c → isNameChar c = false := by
  obtain ⟨q, hs, hlast⟩ := exists_append_dropQualifiers s
  rw [fst_splitQualifiers_of_append hs]
  exact ⟨hs, hlast⟩

/-- **A base is cut behind its qualifiers as well before as after the renaming.** -/
theorem splitQualifiers_chars (s : List Char) :
    splitQualifiers (ρ.chars s) =
      (ρ.chars (splitQualifiers s).1, ρ.chars (splitQualifiers s).2) := by
  obtain ⟨hs, hlast⟩ := splitQualifiers_spec s
  have hsnd : (splitQualifiers (ρ.chars s)).2 = ρ.chars (splitQualifiers s).2 :=
    ρ.dropQualifiers_chars s
  refine Prod.ext ?_ hsnd
  have hchars := congrArg ρ.chars hs
  rw [chars_append ρ (.of_last hlast)] at hchars
  have hspec := (splitQualifiers_spec (ρ.chars s)).1
  rw [hsnd] at hspec
  exact (List.append_cancel_right (hchars.symm.trans hspec)).symm

/-! ### Pointers -/

theorem markersFrom_append_run {w : List Char} (hw : ∀ c ∈ w, isNameChar c = true)
    (pos nesting : Nat) (s : List Char) :
    markersFrom pos nesting (w ++ s) = markersFrom (pos + w.length) nesting s := by
  induction w generalizing pos with
  | nil => rfl
  | cons c w ih =>
    have hother {c' : Char} (hc' : isNameChar c' = false) : c ≠ c' := by
      rintro rfl
      rw [hw c List.mem_cons_self] at hc'
      cases hc'
    rw [List.cons_append, markersFrom_cons_of_ne (hother (by decide)) (hother (by decide))
      (hother (by decide)), ih fun d hd => hw d (List.mem_cons_of_mem c hd), List.length_cons,
      Nat.add_assoc, Nat.add_comm 1]

/-- The markers of a renamed text stand behind the same parts of it. -/
theorem markersFrom_chars (pos pos' nesting : Nat) (s : List Char) :
    markersFrom pos' nesting (ρ.chars s) =
      (markersFrom pos nesting s).map fun p => pos' + (ρ.chars (s.take (p - pos))).length := by
  induction s using runs_induction generalizing pos pos' nesting with
  | nil =>
    rw [chars_nil]
    rfl
  | sep c s hc ih =>
    rw [chars_cons_of_sep ρ hc]
    -- a separator takes one place on both sides
    have hshift (nesting : Nat) : markersFrom (pos' + 1) nesting (ρ.chars s) =
        (markersFrom (pos + 1) nesting s).map fun p =>
          pos' + (ρ.chars ((c :: s).take (p - pos))).length := by
      rw [ih (pos + 1)]
      refine List.map_congr_left fun p hp => ?_
      have hle := le_of_mem_markersFrom hp
      have hp : p - pos = p - (pos + 1) + 1 := by omega
      rw [hp, List.take_succ_cons, chars_cons_of_sep ρ hc, List.length_cons]
      omega
    by_cases hopen : c = '('
    · subst hopen
      exact hshift (nesting + 1)
    by_cases hclose : c = ')'
    · subst hclose
      exact hshift (nesting - 1)
    by_cases hstar : c = '*'
    · subst hstar
      rw [markersFrom, markersFrom]
      split
      · rw [List.map_cons, hshift, Nat.sub_self, List.take_zero, chars_nil]
        rfl
      · exact hshift nesting
    · rw [markersFrom_cons_of_ne hopen hclose hstar, markersFrom_cons_of_ne hopen hclose hstar,
        hshift]
  | run w s _ hw hs ih =>
    -- a run has no markers, but its length may change
    rw [chars_append_run ρ hw hs, markersFrom_append_run fun c => ρ.isNameChar_of_mem_run hw,
      markersFrom_append_run hw, ih (pos + w.length)]
    refine List.map_congr_left fun p hp => ?_
    have hle := le_of_mem_markersFrom hp
    have hp : p - pos = w.length + (p - (pos + w.length)) := by omega
    have hs' : ∀ c, (s.take (p - (pos + w.length))).head? = some c → isNameChar c = false := by
      intro c hc
      rw [List.head?_take] at hc
      split at hc
      · cases hc
      · exact hs c hc
    rw [hp, List.take_length_add_append, chars_append_run ρ hw hs', List.length_append]
    omega

theorem pointerDepth_text (type : String) : pointerDepth (ρ.text type) = pointerDepth type := by
  rw [pointerDepth, pointerMarkers, toList_text, ρ.markersFrom_chars 0, List.length_map]
  rfl

theorem isPointer_text (type : String) : isPointer (ρ.text type) = isPointer type := by
  rw [isPointer, pointerDepth_text, isPointer]

theorem take_chars {s : List Char} {n : Nat} {c : Char} (hc : isNameChar c = false)
    (h : (s.drop n).head? = some c) :
    (ρ.chars s).take (ρ.chars (s.take n)).length = ρ.chars (s.take n) := by
  have hchars := ρ.chars_append (s := s.take n) (t := s.drop n)
    (.of_head fun b hb => by rw [h] at hb; cases hb; exact hc)
  rw [List.take_append_drop] at hchars
  rw [hchars, List.take_left]

/-- **What a buffer stores is renamed.** -/
theorem elementType?_text (type : String) (depth : Nat) :
    elementType? (ρ.text type) depth = (elementType? type depth).map ρ.text := by
  suffices h : elementOf? (ρ.chars type.toList) depth =
      (elementOf? type.toList depth).map ρ.chars by
    rw [elementType?, toList_text, h, elementType?, Option.map_map, Option.map_map]
    exact congrArg (Option.map · _) (funext fun s => (ρ.text_ofList s).symm)
  rw [elementOf?, pointerMarkers, ρ.markersFrom_chars 0, ← List.map_reverse, List.getElem?_map,
    elementOf?, pointerMarkers]
  cases hpos : (markersFrom 0 0 type.toList).reverse[depth]? with
  | none => rfl
  | some pos =>
    have hmem := List.mem_reverse.1 (List.mem_of_getElem? hpos)
    have hstar := head?_drop_of_mem_markersFrom hmem
    have hempty (s : List Char) : (ρ.chars s).isEmpty = s.isEmpty := by
      rw [Bool.eq_iff_iff, List.isEmpty_iff, List.isEmpty_iff, chars_eq_nil_iff]
    simp only [Option.map_some, Nat.zero_add, Nat.sub_zero] at hstar ⊢
    rw [ρ.take_chars (by decide) hstar, trimEnd_chars, hempty]
    split <;> rfl

/-! ### Void -/

theorem isAlphanumeric_of_isBlank {c : Char} (h : Text.isBlank c = true) :
    Text.isAlphanumeric c = false := by
  have hmem : c.toNat ∈ List.range' 0x09 5 ++ List.range' 0x2000 11 ++
      [0x20, 0x85, 0xA0, 0x1680, 0x2028, 0x2029, 0x202F, 0x205F, 0x3000] := by
    simp only [Text.isBlank, Bool.or_eq_true, Bool.and_eq_true, decide_eq_true_eq,
      beq_iff_eq] at h
    simp only [List.mem_append, List.mem_range'_1, List.mem_cons, List.not_mem_nil, or_false]
    omega
  have hnot : ∀ n ∈ List.range' 0x09 5 ++ List.range' 0x2000 11 ++
      [0x20, 0x85, 0xA0, 0x1680, 0x2028, 0x2029, 0x202F, 0x205F, 0x3000],
      Text.isAlphanumeric (Char.ofNat n) = false := by decide +kernel
  have := hnot _ hmem
  rwa [Char.ofNat_toNat] at this

theorem not_isAlphanumeric {c : Char} (h : isNameChar c = false) :
    (!(Text.isAlphanumeric c || c == '_')) = true := by
  simp only [isNameChar, Bool.and_eq_false_iff, Bool.not_eq_false', bne_eq_false_iff_eq] at h
  rcases h with (hword | hblank) | rfl
  · have hnot : ∀ c ∈ " \t\n\r\x7b\x7d()[]<>,.-".toList,
        (!(Text.isAlphanumeric c || c == '_')) = true := Text.forall_mem (by decide +kernel)
    rw [Token.isWordChar, Bool.not_eq_false', List.contains_iff_mem] at hword
    exact hnot c hword
  · rw [isAlphanumeric_of_isBlank hblank, Bool.false_or, Bool.not_eq_true', beq_eq_false_iff_ne]
    rintro rfl
    cases hblank
  · decide +kernel

theorem mem_of_mem_pieces {isSep : Char → Bool} {s v : List Char}
    (h : v ∈ Text.pieces isSep s) {c : Char} (hc : c ∈ v) : c ∈ s := by
  induction s generalizing v with
  | nil =>
    rw [Text.pieces, List.mem_singleton] at h
    rwa [h] at hc
  | cons d s ih =>
    cases hd : isSep d with
    | true =>
      rw [Text.pieces_cons_of_sep hd] at h
      rcases List.mem_cons.1 h with rfl | h
      · cases hc
      · exact List.mem_cons_of_mem d (ih h hc)
    | false =>
      obtain ⟨p, ps, hs⟩ := List.exists_cons_of_ne_nil (@Text.pieces_ne_nil isSep s)
      rw [Text.pieces_cons_of_not_sep hd hs] at h
      rw [hs] at ih
      rcases List.mem_cons.1 h with rfl | h
      · rcases List.mem_cons.1 hc with rfl | hc
        · exact List.mem_cons_self
        · exact List.mem_cons_of_mem d (ih List.mem_cons_self hc)
      · exact List.mem_cons_of_mem d (ih (List.mem_cons_of_mem p h) hc)

theorem mem_pieces_append {isSep : Char → Bool} {s t v : List Char} (hv : v ≠ [])
    (ht : ∀ c, t.head? = some c → isSep c = true) :
    v ∈ Text.pieces isSep (s ++ t) ↔ v ∈ Text.pieces isSep s ∨ v ∈ Text.pieces isSep t := by
  cases t with
  | nil => simp [Text.pieces, hv]
  | cons c t =>
    have hc := ht c rfl
    rw [Text.pieces_append_sep hc, Text.pieces_cons_of_sep hc, List.mem_append, List.mem_cons,
      or_iff_right hv]

theorem not_mem_pieces_register {isSep : Char → Bool} (r : Register) :
    "void".toList ∉ Text.pieces isSep r.1 := by
  intro hmem
  exact r.not_mem (c := 'v') (by decide) (by decide) (mem_of_mem_pieces hmem (by decide))

theorem mem_pieces_chars {isSep : Char → Bool} (hsep : ∀ c, isNameChar c = false → isSep c = true)
    (s : List Char) :
    "void".toList ∈ Text.pieces isSep (ρ.chars s) ↔ "void".toList ∈ Text.pieces isSep s := by
  have hvoid : "void".toList ≠ [] := by decide
  induction s using runs_induction with
  | nil => rw [chars_nil]
  | sep c s hc ih =>
    rw [chars_cons_of_sep ρ hc, Text.pieces_cons_of_sep (hsep c hc),
      Text.pieces_cons_of_sep (hsep c hc), List.mem_cons, List.mem_cons]
    exact or_congr_right ih
  | run w s _ hw hs ih =>
    rw [chars_append_run ρ hw hs,
      mem_pieces_append hvoid fun c hc => hsep c (ρ.isNameChar_head?_chars hs hc),
      mem_pieces_append hvoid fun c hc => hsep c (hs c hc)]
    refine or_congr ?_ ih
    rcases ρ.run_cases w with ⟨r, rfl, hrun⟩ | ⟨-, hrun⟩
    · rw [hrun]
      exact iff_of_false (not_mem_pieces_register _) (not_mem_pieces_register r)
    · rw [hrun]

/-- **No symbol is `void`.** -/
theorem isVoidLike_text (type : String) : isVoidLike (ρ.text type) = isVoidLike type := by
  rw [isVoidLike, isVoidLike, Bool.eq_iff_iff, List.contains_iff_mem, List.contains_iff_mem,
    toList_text]
  exact ρ.mem_pieces_chars (fun c => not_isAlphanumeric) _

end Renaming

end TestSynth
