import TestSynth.Code.Allocation
import TestSynth.Proofs.PointerLevels

/-!
# What the levels of a spelling store

Each marker of a spelling is one level of pointers, and the levels are taken off from the right.  So
it is the same whether some of them are taken off in one step or in two.  What stands in front of a
marker tells what is stored on its level, and in front of all but the leftmost marker stands at
least a star.  The level of the leftmost one stores something unknown if there are only blanks in
front of it.

* `TypeSpelling.elementOf?_bind` : levels taken off in two steps.
* `TypeSpelling.elementOf?_eq_none_iff` : when nothing is known of what is stored.
* `Allocation.fill_eq_error_iff` : on which level an allocation fails.
-/

namespace TestSynth

namespace TypeSpelling

open Text (isBlank trimEnd trimEnd_append)

variable {s : List Char} {depth pos : Nat}

/-- Only blanks stand in front of the leftmost marker. -/
def IsBaseless (s : List Char) : Prop :=
  ∃ pos, (pointerMarkers s).head? = some pos ∧ ∀ c ∈ s.take pos, isBlank c = true

/-- A marker of what is left of another one stands as far from the beginning as in the whole. -/
theorem take_element {pos' : Nat} (h : pos' ∈ pointerMarkers (trimEnd (s.take pos))) :
    (trimEnd (s.take pos)).take pos' = s.take pos' := by
  obtain ⟨blanks, hs, -⟩ := trimEnd_append (s.take pos)
  have hstar := head?_drop_of_mem_markersFrom h
  rw [List.head?_drop] at hstar
  obtain ⟨hlt, -⟩ := List.getElem?_eq_some_iff.1 hstar
  have hle : (trimEnd (s.take pos)).length ≤ pos := by
    have hlength := congrArg List.length hs
    rw [List.length_append, List.length_take] at hlength
    omega
  calc (trimEnd (s.take pos)).take pos'
      = (trimEnd (s.take pos) ++ blanks).take pos' :=
        (List.take_append_of_le_length (by omega)).symm
    _ = s.take pos' := by rw [← hs, List.take_take, Nat.min_eq_left (by omega)]

theorem elementOf?_element (h : (pointerMarkers s).reverse[depth]? = some pos) (below : Nat) :
    elementOf? (trimEnd (s.take pos)) below = elementOf? s (depth + below + 1) := by
  have hmarkers : (pointerMarkers (trimEnd (s.take pos))).reverse[below]? =
      (pointerMarkers s).reverse[depth + below + 1]? := by
    rw [pointerMarkers_element h, List.getElem?_drop, Nat.add_right_comm]
  unfold elementOf?
  rw [hmarkers]
  cases hpos' : (pointerMarkers s).reverse[depth + below + 1]? with
  | none => rfl
  | some pos' =>
    have hmem := List.mem_reverse.1 (List.mem_of_getElem? (hmarkers.trans hpos'))
    simp only [take_element hmem]

/-- **Levels can be taken off in one step or in two.** -/
theorem elementOf?_bind (s : List Char) (a b : Nat) :
    (elementOf? s a).bind (elementOf? · b) = elementOf? s (a + b + 1) := by
  cases h : (pointerMarkers s).reverse[a]? with
  | none =>
    have hlater : (pointerMarkers s).reverse[a + b + 1]? = none := by
      rw [List.getElem?_eq_none_iff] at h ⊢
      omega
    rw [elementOf?, elementOf?, h, hlater]
    rfl
  | some pos =>
    rw [← elementOf?_element h b]
    by_cases hblank : trimEnd (s.take pos) = []
    · have hnone : elementOf? s a = none := by
        rw [elementOf?, h]
        exact if_pos (List.isEmpty_iff.2 hblank)
      rw [hnone, hblank]
      rfl
    · rw [elementOf?_eq_some.2 ⟨pos, h, rfl, hblank⟩]
      rfl

/-- **Nothing is known of what is stored** behind the last level, nor on the last level if only
blanks stand in front of its marker. -/
theorem elementOf?_eq_none_iff :
    elementOf? s depth = none ↔
      (pointerMarkers s).length ≤ depth ∨
        depth + 1 = (pointerMarkers s).length ∧ IsBaseless s := by
  cases h : (pointerMarkers s).reverse[depth]? with
  | none =>
    have hle := List.getElem?_eq_none_iff.1 h
    rw [List.length_reverse] at hle
    simp [elementOf?, hle]
  | some pos =>
    obtain ⟨hlt, -⟩ := List.getElem?_eq_some_iff.1 h
    rw [List.length_reverse] at hlt
    have hblank : elementOf? s depth = none ↔ ∀ c ∈ s.take pos, isBlank c = true := by
      rw [← List.rdropWhile_eq_nil_iff, elementOf?, h]
      simp [trimEnd, List.rdropWhile]
    have hhead (hlast : depth + 1 = (pointerMarkers s).length) :
        (pointerMarkers s).head? = some pos := by
      rw [← List.getLast?_reverse, List.getLast?_eq_getElem?, List.length_reverse, ← hlast]
      exact h
    rw [hblank]
    constructor
    · intro hblanks
      refine .inr ?_
      -- there is no marker in front of this one, since there is no star
      have hmarkers := congrArg List.length (pointerMarkers_element h)
      rw [show trimEnd (s.take pos) = [] from List.rdropWhile_eq_nil_iff.2 hblanks,
        List.length_drop, List.length_reverse, List.length_reverse, pointerMarkers, markersFrom,
        List.length_nil] at hmarkers
      have hlast : depth + 1 = (pointerMarkers s).length := by omega
      exact ⟨hlast, pos, hhead hlast, hblanks⟩
    · rintro (hle | ⟨hlast, pos', hpos', hblanks⟩)
      · omega
      · obtain rfl := Option.some.inj ((hhead hlast).symm.trans hpos')
        exact hblanks

end TypeSpelling

open TypeSpelling

theorem elementType?_eq_none_iff {type : String} {depth : Nat} :
    elementType? type depth = none ↔
      pointerDepth type ≤ depth ∨ depth + 1 = pointerDepth type ∧ IsBaseless type.toList := by
  rw [elementType?, Option.map_eq_none_iff, elementOf?_eq_none_iff, pointerDepth]

example : elementType? "*const *" 0 = some "*const" ∧ elementType? "*const *" 1 = none := by
  decide

/-- **An allocation fails on its last level or not at all.** -/
theorem Allocation.fill_eq_error_iff {t : Tables} {type root : String} {below depth : Nat}
    {e : Error} (h : depth + below + 1 = pointerDepth type) :
    fill t type root below depth = .error e ↔
      IsBaseless type.toList ∧ e = .unresolvableType type (depth + below) := by
  induction below generalizing depth with
  | zero =>
    have hnone : elementType? type depth = none ↔ IsBaseless type.toList := by
      rw [elementType?_eq_none_iff]
      exact ⟨fun h' => h'.elim (by omega) And.right, fun h' => .inr ⟨h, h'⟩⟩
    rw [← hnone, fill]
    cases elementType? type depth with
    | none => exact ⟨fun h' => ⟨rfl, (Except.error.inj h').symm⟩, fun h' => congrArg _ h'.2.symm⟩
    | some element => simp [pure, Except.pure]
  | succ below ih =>
    -- a marker stands in front of this one
    have hsome : elementType? type depth ≠ none := by
      rw [Ne, elementType?_eq_none_iff]
      omega
    obtain ⟨element, helement⟩ := Option.ne_none_iff_exists'.1 hsome
    have hinner := @ih (depth + 1) (by omega)
    rw [Nat.add_right_comm depth 1 below, Nat.add_assoc] at hinner
    have hfill : fill t type root (below + 1) depth =
        (fill t type root below (depth + 1)).bind fun inner =>
          .ok [.allocate (List.range depth) element (t.neededSize root depth),
            .loop depth (t.neededSize root depth) inner] := by
      rw [fill, helement]
      rfl
    rw [← hinner, hfill]
    cases fill t type root below (depth + 1) with
    | error e' => exact Iff.rfl
    | ok steps => simp [Except.bind]

/-- **The types that the levels of a spelling store telescope.**  What is stored `b` dereferences
away in what is stored `a` dereferences away is stored `a + b + 1` dereferences away in the whole;
each dereference takes one level; and there is always something stored but on the last level of a
spelling that begins with a star, which is the only level on which an allocation fails. -/
theorem elementType_telescopes (type : String) :
    (∀ a b, (elementType? type a).bind (elementType? · b) = elementType? type (a + b + 1)) ∧
    (∀ depth element, elementType? type depth = some element →
      depth < pointerDepth type ∧ pointerDepth element = pointerDepth type - depth - 1) ∧
    (∀ depth, elementType? type depth = none ↔
      pointerDepth type ≤ depth ∨ depth + 1 = pointerDepth type ∧ IsBaseless type.toList) ∧
    ∀ (t : Tables) (demand : Allocation.Demand) (e : Error), demand.type = type →
      0 < pointerDepth type →
      (demand.steps t = .error e ↔
        IsBaseless type.toList ∧ e = .unresolvableType type (pointerDepth type - 1)) := by
  refine ⟨fun a b => ?_, fun depth element => pointerDepth_elementType,
    fun depth => elementType?_eq_none_iff, ?_⟩
  · rw [elementType?, elementType?, ← elementOf?_bind, Option.bind_map, Option.map_bind]
    congr 1
    funext s
    rw [Function.comp_apply, elementType?, String.toList_ofList]
    rfl
  · rintro t demand e rfl hpointer
    rw [Allocation.Demand.steps, Allocation.fill_eq_error_iff (by omega), Nat.zero_add]

/-- Two levels of pointers with a qualifier between them, and no type in front. -/
theorem elementType_telescopes_baseless :
    elementType? "*const *" 0 = some "*const" ∧ pointerDepth "*const" = 1 ∧
      elementType? "*const" 0 = none ∧ elementType? "*const *" 1 = none ∧
      Allocation.Demand.steps {} ⟨"reg_$0", "p", "*const *", "reg_$0"⟩ =
        .error (.unresolvableType "*const *" 1) := by
  obtain ⟨hbind, hdepth, hnone, hsteps⟩ := elementType_telescopes "*const *"
  have hlevels : pointerDepth "*const *" = 2 := by decide
  have hfirst : elementType? "*const *" 0 = some "*const" := by decide
  have hbaseless : IsBaseless "*const *".toList := ⟨0, by decide, by simp⟩
  have hlast : elementType? "*const *" 1 = none := (hnone 1).2 (.inr ⟨hlevels.symm, hbaseless⟩)
  have hinner : (elementType? "*const *" 0).bind (elementType? · 0) = none :=
    (hbind 0 0).trans hlast
  rw [hfirst, Option.bind_some] at hinner
  refine ⟨hfirst, ?_, hinner, hlast,
    (hsteps {} _ _ rfl (by rw [hlevels]; decide)).2 ⟨hbaseless, by rw [hlevels]⟩⟩
  rw [(hdepth 0 _ hfirst).2, hlevels]

end TestSynth
