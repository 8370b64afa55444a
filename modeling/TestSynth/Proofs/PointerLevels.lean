import TestSynth.TypeSpelling
import Mathlib.Data.List.DropRight

/-!
# Levels of pointers

The markers of a spelling stand in ascending order, and cutting a spelling off leaves the markers in
front of the cut.  So the type that a buffer stores has as many markers as stand in front of the one
at which the spelling of the buffer is cut.

* `TypeSpelling.markersFrom_take` : the markers of the beginning of a text.
* `TypeSpelling.pointerMarkers_element` : the markers left in front of the one at which a spelling
  is cut.
* `pointerDepth_elementType` : a type that is stored `depth` dereferences away has `depth + 1`
  levels less.
-/

namespace TestSynth

namespace Text

theorem trimEnd_append (s : List Char) :
    ∃ blanks, s = trimEnd s ++ blanks ∧ ∀ c ∈ blanks, isBlank c = true :=
  ⟨s.rtakeWhile isBlank, List.rdropWhile_append_rtakeWhile.symm,
    fun _ => List.mem_rtakeWhile_imp⟩

theorem rdropWhile_append {α : Type} {p : α → Bool} (s : List α) {tail : List α}
    (h : ∀ c ∈ tail, p c = true) : (s ++ tail).rdropWhile p = s.rdropWhile p := by
  induction tail using List.reverseRecOn with
  | nil => rw [List.append_nil]
  | append_singleton tail c ih =>
    rw [← List.append_assoc, List.rdropWhile_concat_pos _ _ _ (h c (by simp))]
    exact ih fun d hd => h d (List.mem_append_left _ hd)

end Text

namespace TypeSpelling

open Text (isBlank trimEnd trimEnd_append)

theorem le_of_mem_markersFrom {s : List Char} {pos nesting p : Nat}
    (h : p ∈ markersFrom pos nesting s) : pos ≤ p := by
  fun_induction markersFrom pos nesting s with
  | case1 => cases h
  | case2 pos nesting s ih => exact Nat.le_of_succ_le (ih h)
  | case3 pos nesting s ih => exact Nat.le_of_succ_le (ih h)
  | case4 pos s ih =>
    rcases List.mem_cons.1 h with rfl | h
    · exact Nat.le_refl _
    · exact Nat.le_of_succ_le (ih h)
  | case5 pos nesting s hnesting ih => exact Nat.le_of_succ_le (ih h)
  | case6 pos nesting c s _ _ _ ih => exact Nat.le_of_succ_le (ih h)

theorem pairwise_markersFrom (pos nesting : Nat) (s : List Char) :
    (markersFrom pos nesting s).Pairwise (· < ·) := by
  fun_induction markersFrom pos nesting s with
  | case1 => exact .nil
  | case2 pos nesting s ih => exact ih
  | case3 pos nesting s ih => exact ih
  | case4 pos s ih => exact .cons (fun p hp => le_of_mem_markersFrom hp) ih
  | case5 pos nesting s hnesting ih => exact ih
  | case6 pos nesting c s _ _ _ ih => exact ih

/-- At each marker stands a star. -/
theorem head?_drop_of_mem_markersFrom {s : List Char} {pos nesting p : Nat}
    (h : p ∈ markersFrom pos nesting s) : (s.drop (p - pos)).head? = some '*' := by
  have hcons {c : Char} {s : List Char} {pos nesting : Nat}
      (hmem : p ∈ markersFrom (pos + 1) nesting s)
      (ih : (s.drop (p - (pos + 1))).head? = some '*') :
      ((c :: s).drop (p - pos)).head? = some '*' := by
    have hle := le_of_mem_markersFrom hmem
    have hp : p - pos = p - (pos + 1) + 1 := by omega
    rwa [hp, List.drop_succ_cons]
  fun_induction markersFrom pos nesting s with
  | case1 => cases h
  | case2 pos nesting s ih => exact hcons h (ih h)
  | case3 pos nesting s ih => exact hcons h (ih h)
  | case4 pos s ih =>
    rcases List.mem_cons.1 h with rfl | h
    · rw [Nat.sub_self]
      rfl
    · exact hcons h (ih h)
  | case5 pos nesting s hnesting ih => exact hcons h (ih h)
  | case6 pos nesting c s _ _ _ ih => exact hcons h (ih h)

theorem markersFrom_cons_of_ne {c : Char} (hopen : c ≠ '(') (hclose : c ≠ ')') (hstar : c ≠ '*')
    (pos nesting : Nat) (s : List Char) :
    markersFrom pos nesting (c :: s) = markersFrom (pos + 1) nesting s := by
  rw [markersFrom] <;> assumption

/-- The markers of the beginning of a text are those in front of the cut. -/
theorem markersFrom_take (pos nesting n : Nat) (s : List Char) :
    markersFrom pos nesting (s.take n) =
      (markersFrom pos nesting s).filter (· < pos + n) := by
  induction n generalizing pos nesting s with
  | zero =>
    rw [List.take_zero, markersFrom, eq_comm, List.filter_eq_nil_iff]
    intro p hp
    have := le_of_mem_markersFrom hp
    simpa using this
  | succ n ih =>
    have hshift : pos + (n + 1) = pos + 1 + n := by omega
    rw [hshift]
    fun_cases markersFrom pos nesting s with
    | case1 => rfl
    | case2 s => exact ih _ _ s
    | case3 s => exact ih _ _ s
    | case4 s =>
      have hfirst : pos < pos + 1 + n := by omega
      rw [List.filter_cons_of_pos (by simpa using hfirst), ← ih, List.take_succ_cons, markersFrom]
      simp [*]
    | case5 s hnesting =>
      rw [List.take_succ_cons, markersFrom, if_neg hnesting, ih]
    | case6 c s hopen hclose hstar =>
      rw [List.take_succ_cons, markersFrom_cons_of_ne hopen hclose hstar, ih]

theorem markersFrom_append_blanks (pos nesting : Nat) (s : List Char) {blanks : List Char}
    (h : ∀ c ∈ blanks, isBlank c = true) :
    markersFrom pos nesting (s ++ blanks) = markersFrom pos nesting s := by
  fun_induction markersFrom pos nesting s with
  | case1 pos nesting =>
    induction blanks generalizing pos with
    | nil => rfl
    | cons c blanks ih =>
      have hblank := h c List.mem_cons_self
      have hother (c' : Char) (hc' : isBlank c' = false) : c ≠ c' := by
        rintro rfl
        simp [hc'] at hblank
      rw [List.nil_append, markersFrom_cons_of_ne (hother '(' (by decide)) (hother ')' (by decide))
        (hother '*' (by decide))]
      exact ih (fun d hd => h d (List.mem_cons_of_mem c hd)) (pos + 1)
  | case2 pos nesting s ih => exact ih
  | case3 pos nesting s ih => exact ih
  | case4 pos s ih => simp [markersFrom, ih]
  | case5 pos nesting s hnesting ih => simp [markersFrom, hnesting, ih]
  | case6 pos nesting c s hopen hclose hstar ih =>
    rw [List.cons_append, markersFrom_cons_of_ne hopen hclose hstar, ih]

theorem pointerMarkers_trimEnd (s : List Char) : pointerMarkers (trimEnd s) = pointerMarkers s := by
  obtain ⟨blanks, hs, hblanks⟩ := trimEnd_append s
  conv_rhs => rw [hs]
  exact (markersFrom_append_blanks 0 0 _ hblanks).symm

/-- The entries of a descending list that are less than one of them stand behind it. -/
theorem filter_lt_of_getElem? {l : List Nat} (h : l.Pairwise (· > ·)) {i p : Nat}
    (hp : l[i]? = some p) : l.filter (· < p) = l.drop (i + 1) := by
  obtain ⟨hi, hp⟩ := List.getElem?_eq_some_iff.1 hp
  have hsplit : l = l.take i ++ p :: l.drop (i + 1) := by
    rw [← hp, ← List.drop_eq_getElem_cons hi, List.take_append_drop]
  rw [hsplit, List.pairwise_append, List.pairwise_cons] at h
  obtain ⟨-, ⟨hbehind, -⟩, hfront⟩ := h
  have htake : (l.take i).filter (· < p) = [] :=
    List.filter_eq_nil_iff.2 fun q hq => by
      simpa using Nat.le_of_lt (hfront q hq p List.mem_cons_self)
  have hdrop : (l.drop (i + 1)).filter (· < p) = l.drop (i + 1) :=
    List.filter_eq_self.2 fun q hq => by simpa using hbehind q hq
  conv_lhs => rw [hsplit]
  rw [List.filter_append, htake, List.nil_append, List.filter_cons_of_neg (by simp), hdrop]

/-- What is left of a marker has the markers that stand in front of it. -/
theorem pointerMarkers_element {s : List Char} {depth pos : Nat}
    (h : (pointerMarkers s).reverse[depth]? = some pos) :
    (pointerMarkers (trimEnd (s.take pos))).reverse =
      (pointerMarkers s).reverse.drop (depth + 1) := by
  have htake : pointerMarkers (s.take pos) = (pointerMarkers s).filter (· < pos) := by
    rw [pointerMarkers, markersFrom_take, Nat.zero_add, pointerMarkers]
  have hdesc : (pointerMarkers s).reverse.Pairwise (· > ·) :=
    List.pairwise_reverse.2 (pairwise_markersFrom 0 0 s)
  rw [pointerMarkers_trimEnd, htake, ← List.filter_reverse, filter_lt_of_getElem? hdesc h]

theorem elementOf?_eq_some {s element : List Char} {depth : Nat} :
    elementOf? s depth = some element ↔
      ∃ pos, (pointerMarkers s).reverse[depth]? = some pos ∧ element = trimEnd (s.take pos) ∧
        element ≠ [] := by
  unfold elementOf?
  cases (pointerMarkers s).reverse[depth]? with
  | none => simp
  | some pos =>
    simp only [List.isEmpty_iff, Option.ite_none_left_eq_some, Option.some.injEq,
      exists_eq_left']
    exact ⟨fun ⟨hne, heq⟩ => ⟨heq.symm, heq ▸ hne⟩, fun ⟨heq, hne⟩ => ⟨heq ▸ hne, heq.symm⟩⟩

end TypeSpelling

open TypeSpelling

/-- **A type that is stored `depth` dereferences away has `depth + 1` levels of pointers less.** -/
theorem pointerDepth_elementType {type element : String} {depth : Nat}
    (h : elementType? type depth = some element) :
    depth < pointerDepth type ∧ pointerDepth element = pointerDepth type - depth - 1 := by
  obtain ⟨s, hs, rfl⟩ := Option.map_eq_some_iff.1 h
  obtain ⟨pos, hpos, rfl, -⟩ := elementOf?_eq_some.1 hs
  obtain ⟨hdepth, -⟩ := List.getElem?_eq_some_iff.1 hpos
  rw [List.length_reverse] at hdepth
  refine ⟨hdepth, ?_⟩
  have hlength := congrArg List.length (pointerMarkers_element hpos)
  rw [List.length_reverse, List.length_drop, List.length_reverse] at hlength
  rw [pointerDepth, String.toList_ofList, hlength, Nat.sub_sub, pointerDepth]

end TestSynth
