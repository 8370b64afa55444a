import TestSynth.Proofs.PointerLevels
import TestSynth.Proofs.Renaming.Types
import TestSynth.Proofs.SpellingParts
import Mathlib.Logic.Function.Iterate

/-!
# The walk through the typedefs

A type is resolved by a walk: the base is looked up, what its typedef stands for is split into the
next base and a suffix, and so on, until a base is unknown or was looked up before.  The walk is
stated here with the bases that it has looked up, and counts its lookups.

* `Walk` : a walk, how often it looks up a base, and what it reaches.
* `exists_walk` : there is a walk on every table, with at most one lookup for each typedef and one
  more.
* `Declarations.resolveType_pointerTo` : a pointer to a type is resolved to a pointer to what the
  type is resolved to.
* `Declarations.resolveType_walk` : both of a type, and the levels of what it is resolved to.
-/

namespace TestSynth

open TypeSpelling
open Renaming (isFiller followTypedefs_of_none followTypedefs_of_some)

/-! ### Bases -/

namespace TypeSpelling

/-- The leading qualifiers of a type. -/
def leadingPart (type : String) : List Char :=
  (splitQualifiers (splitSuffix (Text.trim type.toList)).1).1

/-- The base of a type, between its leading qualifiers and its suffix. -/
def baseName (type : String) : List Char :=
  dropQualifiers (splitSuffix (Text.trim type.toList)).1

/-- The suffix of a type. -/
def trailingPart (type : String) : List Char := (splitSuffix (Text.trim type.toList)).2

theorem leading_leadingPart (type : String) : Leading (leadingPart type) :=
  (splitQualifiers_parts _).2

theorem trim_parts (type : String) :
    Text.trim type.toList = leadingPart type ++ (baseName type ++ trailingPart type) := by
  have hbase := (splitQualifiers_parts (splitSuffix (Text.trim type.toList)).1).1
  rw [← List.append_assoc]
  exact (splitSuffix_parts _).1.trans (congrArg (· ++ trailingPart type) hbase)

theorem trim_splitSuffix (s : List Char) :
    Text.trim (splitSuffix (Text.trim s)).1 = (splitSuffix (Text.trim s)).1 := by
  refine Text.trim_eq_self_iff.2 ⟨?_, fun c hc => ?_⟩
  · have hflush := (Text.flush_trim s).1
    rw [(splitSuffix_parts (Text.trim s)).1] at hflush
    exact hflush.of_append
  · rw [List.head?_reverse] at hc
    exact (Bool.or_eq_false_iff.1 (isFiller_getLast?_splitSuffix _ hc)).2

theorem trim_dropQualifiers {s : List Char} (hs : Text.trim s = s) :
    Text.trim (dropQualifiers s) = dropQualifiers s := by
  obtain ⟨hstart, hend⟩ := Text.trim_eq_self_iff.1 hs
  refine Text.trim_eq_self_iff.2 ⟨flush_dropQualifiers hstart, ?_⟩
  obtain ⟨p, hp, -⟩ := leading_dropQualifiers s
  rw [hp, List.reverse_append] at hend
  exact hend.of_append

theorem trim_baseName (type : String) : Text.trim (baseName type) = baseName type :=
  trim_dropQualifiers (trim_splitSuffix type.toList)

theorem trimmed_ofList {base : List Char} (h : Text.trim base = base) :
    Text.trimmed (String.ofList base) = String.ofList base := by
  rw [Text.trimmed, String.toList_ofList, h]

theorem trim_toList {s : String} (h : Text.trimmed s = s) : Text.trim s.toList = s.toList := by
  rwa [← String.toList_inj, Text.trimmed, String.toList_ofList] at h

end TypeSpelling

/-! ### Walks -/

/-- A walk from a base and a suffix, with the bases that were looked up before: the number of its
lookups, and the base and the suffix it reaches. -/
inductive Walk (typedefs : Table String) :
    List (List Char) → List Char → List Char → Nat → List Char × List Char → Prop
  /-- The base was looked up before. -/
  | again {visited : List (List Char)} {base suffix : List Char} (h : base ∈ visited) :
    Walk typedefs visited base suffix 0 (base, suffix)
  /-- The base is no typedef. -/
  | unknown {visited : List (List Char)} {base suffix : List Char} (hnew : base ∉ visited)
      (h : typedefs[Text.trimmed (String.ofList base)]? = none) :
    Walk typedefs visited base suffix 1 (base, suffix)
  /-- The walk goes on with what the typedef stands for. -/
  | follow {visited : List (List Char)} {base suffix : List Char} (hnew : base ∉ visited)
      {target : String} (h : typedefs[Text.trimmed (String.ofList base)]? = some target)
      {lookups : Nat} {reached : List Char × List Char}
      (hwalk : Walk typedefs (base :: visited) (splitSuffix (Text.trim target.toList)).1
        ((splitSuffix (Text.trim target.toList)).2 ++ suffix) lookups reached) :
    Walk typedefs visited base suffix (lookups + 1) reached

theorem Walk.unique {typedefs : Table String} {visited : List (List Char)} {base suffix : List Char}
    {lookups lookups' : Nat} {reached reached' : List Char × List Char}
    (h : Walk typedefs visited base suffix lookups reached)
    (h' : Walk typedefs visited base suffix lookups' reached') :
    lookups' = lookups ∧ reached' = reached := by
  induction h generalizing lookups' with
  | again hmem =>
    cases h' with
    | again => exact ⟨rfl, rfl⟩
    | unknown hnew => exact absurd hmem hnew
    | follow hnew => exact absurd hmem hnew
  | unknown hnew hnone =>
    cases h' with
    | again hmem => exact absurd hmem hnew
    | unknown => exact ⟨rfl, rfl⟩
    | follow _ hsome => cases hnone.symm.trans hsome
  | follow hnew hsome _ ih =>
    cases h' with
    | again hmem => exact absurd hmem hnew
    | unknown _ hnone => cases hnone.symm.trans hsome
    | follow _ hsome' hwalk =>
      cases hsome.symm.trans hsome'
      obtain ⟨rfl, rfl⟩ := ih hwalk
      exact ⟨rfl, rfl⟩

/-- The typedefs that are left when those of the visited bases are taken out. -/
def Remaining (typedefs : Table String) (visited : List (List Char)) (left : Table String) : Prop :=
  ∀ name : String, left[name]? = if name.toList ∈ visited then none else typedefs[name]?

namespace Remaining

variable {typedefs left : Table String} {visited : List (List Char)} {base : List Char}

theorem nil (typedefs : Table String) : Remaining typedefs [] typedefs := fun _ => rfl

theorem lookup (h : Remaining typedefs visited left) (hbase : Text.trim base = base) :
    left[Text.trimmed (String.ofList base)]? =
      if base ∈ visited then none else typedefs[Text.trimmed (String.ofList base)]? := by
  rw [h, trimmed_ofList hbase, String.toList_ofList]

theorem erase (h : Remaining typedefs visited left) (hbase : Text.trim base = base) :
    Remaining typedefs (base :: visited) (left.erase (Text.trimmed (String.ofList base))) := by
  intro name
  have heq : Text.trimmed (String.ofList base) = name ↔ name.toList = base := by
    rw [trimmed_ofList hbase, ← String.toList_inj, String.toList_ofList, eq_comm]
  rw [Std.ExtTreeMap.getElem?_erase, h name]
  simp only [Std.LawfulEqCmp.compare_eq_iff_eq, heq, List.mem_cons]
  split_ifs <;> simp_all

end Remaining

/-- **There is a walk on every table**: its typedefs are erased along the walk as they are when they
are followed, and each is erased once. -/
theorem exists_walk {typedefs left : Table String} {visited : List (List Char)} {base : List Char}
    (h : Remaining typedefs visited left) (hbase : Text.trim base = base) (suffix : List Char) :
    ∃ lookups, Walk typedefs visited base suffix lookups (followTypedefs left base suffix) ∧
      lookups ≤ left.size + 1 := by
  induction hn : left.size using Nat.strongRecOn generalizing left visited base suffix with
  | ind n ih =>
    have hlookup := h.lookup hbase
    by_cases hvisited : base ∈ visited
    · rw [if_pos hvisited] at hlookup
      rw [followTypedefs_of_none hlookup]
      exact ⟨0, .again hvisited, Nat.zero_le _⟩
    rw [if_neg hvisited] at hlookup
    cases htarget : typedefs[Text.trimmed (String.ofList base)]? with
    | none =>
      rw [followTypedefs_of_none (hlookup.trans htarget)]
      exact ⟨1, .unknown hvisited htarget, Nat.le_add_left 1 n⟩
    | some target =>
      have hleft := hlookup.trans htarget
      have hsize := hn ▸ Table.size_erase_lt (Table.mem_of_getElem? hleft)
      obtain ⟨lookups, hwalk, hle⟩ := ih _ hsize (h.erase hbase) (trim_splitSuffix target.toList)
        ((splitSuffix (Text.trim target.toList)).2 ++ suffix) rfl
      rw [followTypedefs_of_some hleft]
      exact ⟨lookups + 1, .follow hvisited htarget hwalk, by omega⟩

/-- A type is resolved by following the typedefs of its base. -/
theorem Declarations.resolveType_parts (d : Declarations) (type : String) :
    d.resolveType type = String.ofList (leadingPart type ++
      ((followTypedefs d.typedefs (baseName type) (trailingPart type)).1 ++
        (followTypedefs d.typedefs (baseName type) (trailingPart type)).2)) :=
  congrArg String.ofList (List.append_assoc _ _ _)

/-! ### Pointers -/

/-- The suffix of a type stays behind what is reached from its base. -/
theorem followTypedefs_append (typedefs : Table String) (base suffix f : List Char) :
    followTypedefs typedefs base (suffix ++ f) =
      ((followTypedefs typedefs base suffix).1, (followTypedefs typedefs base suffix).2 ++ f) := by
  induction hn : typedefs.size using Nat.strongRecOn generalizing typedefs base suffix with
  | ind n ih =>
    cases htarget : typedefs[Text.trimmed (String.ofList base)]? with
    | none => rw [followTypedefs_of_none htarget, followTypedefs_of_none htarget]
    | some target =>
      rw [followTypedefs_of_some htarget, followTypedefs_of_some htarget, ← List.append_assoc]
      exact ih _ (hn ▸ Table.size_erase_lt (Table.mem_of_getElem? htarget)) _ _ _ rfl

theorem Declarations.resolveType_of_trim (d : Declarations) {type type' : String} {f : List Char}
    (hf : ∀ c ∈ f, isFiller c = true) (h : Text.trim type'.toList = Text.trim type.toList ++ f) :
    d.resolveType type' = d.resolveType type ++ String.ofList f := by
  rw [resolveType, h, splitSuffix_append_fillers _ hf, resolveType]
  dsimp only
  rw [followTypedefs_append, ← String.ofList_append, List.append_assoc, List.append_assoc,
    List.append_assoc]

/-- A type with one more pointer behind it. -/
def pointerTo (type : String) : String := type ++ " *"

theorem toList_pointerTo (type : String) : (pointerTo type).toList = type.toList ++ [' ', '*'] :=
  String.toList_append

theorem isFiller_of_mem_pointer : ∀ c ∈ [' ', '*'], isFiller c = true :=
  Text.forall_mem (by decide)

theorem trimmed_pointerTo {type : String} (hne : type ≠ "") (h : Text.trimmed type = type) :
    pointerTo type ≠ "" ∧ Text.trimmed (pointerTo type) = pointerTo type := by
  have htype := trim_toList h
  have hstart : Text.Flush (type.toList ++ [' ', '*']) := by
    obtain ⟨c, s, hs⟩ := List.exists_cons_of_ne_nil (mt String.toList_eq_nil_iff.1 hne)
    have hflush := (Text.trim_eq_self_iff.1 htype).1
    rw [hs] at hflush ⊢
    exact Text.flush_cons (hflush c rfl)
  have hend : Text.Flush (type.toList ++ [' ', '*']).reverse := by
    rw [List.reverse_append]
    exact Text.flush_cons (by decide)
  constructor
  · rw [ne_eq, ← String.toList_eq_nil_iff, toList_pointerTo]
    simp
  · rw [Text.trimmed, toList_pointerTo, Text.trim_eq_self_iff.2 ⟨hstart, hend⟩, ← toList_pointerTo,
      String.ofList_toList]

/-- **A pointer to a type is resolved to a pointer to what the type is resolved to.** -/
theorem Declarations.resolveType_pointerTo (d : Declarations) {type : String} (hne : type ≠ "")
    (h : Text.trimmed type = type) :
    d.resolveType (pointerTo type) = pointerTo (d.resolveType type) := by
  refine d.resolveType_of_trim isFiller_of_mem_pointer ?_
  rw [trim_toList (trimmed_pointerTo hne h).2, trim_toList h, toList_pointerTo]

/-! ### Levels -/

namespace TypeSpelling

/-- The number of parentheses that are open behind a text. -/
def nestingAfter (nesting : Nat) : List Char → Nat
  | [] => nesting
  | '(' :: s => nestingAfter (nesting + 1) s
  | ')' :: s => nestingAfter (nesting - 1) s
  | _ :: s => nestingAfter nesting s

theorem nestingAfter_cons_of_ne {c : Char} (hopen : c ≠ '(') (hclose : c ≠ ')') (nesting : Nat)
    (s : List Char) : nestingAfter nesting (c :: s) = nestingAfter nesting s := by
  rw [nestingAfter] <;> assumption

theorem markersFrom_append (pos nesting : Nat) (s t : List Char) :
    markersFrom pos nesting (s ++ t) =
      markersFrom pos nesting s ++ markersFrom (pos + s.length) (nestingAfter nesting s) t := by
  have hshift (pos : Nat) (s : List Char) : pos + (s.length + 1) = pos + 1 + s.length := by omega
  fun_induction markersFrom pos nesting s with
  | case1 => rfl
  | case2 pos nesting s ih => rw [List.length_cons, hshift]; exact ih
  | case3 pos nesting s ih => rw [List.length_cons, hshift]; exact ih
  | case4 pos s ih =>
    rw [List.length_cons, hshift, nestingAfter_cons_of_ne (by decide) (by decide), List.cons_append,
      markersFrom, if_pos rfl, ih, List.cons_append]
  | case5 pos nesting s hnesting ih =>
    rw [List.length_cons, hshift, nestingAfter_cons_of_ne (by decide) (by decide), List.cons_append,
      markersFrom, if_neg hnesting, ih]
  | case6 pos nesting c s hopen hclose hstar ih =>
    rw [List.length_cons, hshift, nestingAfter_cons_of_ne hopen hclose, List.cons_append,
      markersFrom_cons_of_ne hopen hclose hstar, ih]

/-- No parenthesis of a text is closed that is not open, and in the end all are closed. -/
def Balanced (s : List Char) : Prop :=
  (∀ n ≤ s.length, (s.take n).count ')' ≤ (s.take n).count '(') ∧ s.count ')' = s.count '('

instance (s : List Char) : Decidable (Balanced s) := inferInstanceAs (Decidable (_ ∧ _))

/-- With `nesting` parentheses open in front of a text, none of it is closed too many. -/
def Closable (nesting : Nat) (s : List Char) : Prop :=
  ∀ n ≤ s.length, (s.take n).count ')' ≤ nesting + (s.take n).count '('

section Closable

variable {nesting : Nat} {c : Char} {s : List Char}

theorem Closable.behind_open (h : Closable nesting ('(' :: s)) : Closable (nesting + 1) s := by
  intro n hn
  simpa [Nat.add_assoc, Nat.add_comm 1] using h (n + 1) (Nat.succ_le_succ hn)

theorem Closable.one_le (h : Closable nesting (')' :: s)) : 1 ≤ nesting := by
  simpa using h 1 (by simp)

theorem Closable.behind_close (h : Closable nesting (')' :: s)) : Closable (nesting - 1) s := by
  intro n hn
  have := h (n + 1) (Nat.succ_le_succ hn)
  simp at this
  omega

theorem Closable.behind_other (hopen : c ≠ '(') (hclose : c ≠ ')') (h : Closable nesting (c :: s)) :
    Closable nesting s := by
  intro n hn
  have := h (n + 1) (Nat.succ_le_succ hn)
  rwa [List.take_succ_cons, List.count_cons_of_ne hclose, List.count_cons_of_ne hopen] at this

/-- If none is closed too many, the open parentheses behind a text are those opened there that are
not closed. -/
theorem nestingAfter_add_count (h : Closable nesting s) :
    nestingAfter nesting s + s.count ')' = nesting + s.count '(' := by
  fun_induction nestingAfter nesting s with
  | case1 nesting => rfl
  | case2 nesting s ih =>
    have := ih h.behind_open
    simp only [List.count_cons_self, List.count_cons_of_ne (show '(' ≠ ')' by decide)]
    omega
  | case3 nesting s ih =>
    have hopen := h.one_le
    have := ih h.behind_close
    simp only [List.count_cons_self, List.count_cons_of_ne (show ')' ≠ '(' by decide)]
    omega
  | case4 nesting c s hopen hclose ih =>
    rw [List.count_cons_of_ne hclose, List.count_cons_of_ne hopen]
    exact ih (h.behind_other hopen hclose)

end Closable

namespace Balanced

variable {s t : List Char}

theorem closable (h : Balanced s) : Closable 0 s := fun n hn => by simpa using h.1 n hn

theorem nestingAfter_eq (h : Balanced s) : nestingAfter 0 s = 0 := by
  have := nestingAfter_add_count h.closable
  have := h.2
  omega

theorem append (hs : Balanced s) (ht : Balanced t) : Balanced (s ++ t) := by
  have hle {s : List Char} (hs : Balanced s) (n : Nat) :
      (s.take n).count ')' ≤ (s.take n).count '(' := by
    rcases Nat.le_total n s.length with hn | hn
    · exact hs.1 n hn
    · rw [List.take_of_length_le hn]
      exact hs.2.le
  refine ⟨fun n _ => ?_, by rw [List.count_append, List.count_append, hs.2, ht.2]⟩
  rw [List.take_append, List.count_append, List.count_append]
  exact Nat.add_le_add (hle hs n) (hle ht _)

theorem pointerTo {type : String} (h : Balanced type.toList) :
    Balanced (pointerTo type).toList := by
  rw [toList_pointerTo]
  exact h.append (by decide)

end Balanced

end TypeSpelling

theorem pointerDepth_pointerTo {type : String} (h : Balanced type.toList) :
    pointerDepth (pointerTo type) = pointerDepth type + 1 := by
  rw [pointerDepth, pointerMarkers, toList_pointerTo, markersFrom_append, h.nestingAfter_eq,
    List.length_append]
  rfl

theorem Declarations.resolveType_iterate_pointerTo (d : Declarations) (n : Nat) {type : String}
    (hne : type ≠ "") (h : Text.trimmed type = type) :
    d.resolveType (pointerTo^[n] type) = pointerTo^[n] (d.resolveType type) := by
  induction n generalizing type with
  | zero => rfl
  | succ n ih =>
    obtain ⟨hne', h'⟩ := trimmed_pointerTo hne h
    rw [Function.iterate_succ_apply, Function.iterate_succ_apply, ih hne' h',
      d.resolveType_pointerTo hne h]

theorem pointerDepth_iterate_pointerTo (n : Nat) {type : String} (h : Balanced type.toList) :
    pointerDepth (pointerTo^[n] type) = pointerDepth type + n := by
  induction n generalizing type with
  | zero => rfl
  | succ n ih =>
    rw [Function.iterate_succ_apply, ih h.pointerTo, pointerDepth_pointerTo h]
    omega

/-- **A type is resolved by a walk that comes to an end on every table**, with at most one lookup
more than there are typedefs, **and resolving goes through pointers**: each pointer behind a type
is one behind what the type is resolved to, and one level more. -/
theorem Declarations.resolveType_walk (d : Declarations) (type : String) :
    (∃ (lookups : Nat) (reached : List Char × List Char),
      (∀ n r, Walk d.typedefs [] (baseName type) (trailingPart type) n r ↔
        n = lookups ∧ r = reached) ∧
      lookups ≤ d.typedefs.size + 1 ∧
      d.resolveType type = String.ofList (leadingPart type ++ (reached.1 ++ reached.2))) ∧
    (type ≠ "" → Text.trimmed type = type →
      d.resolveType (type ++ " *") = d.resolveType type ++ " *" ∧
      (Balanced (d.resolveType type).toList → ∀ n : Nat,
        pointerDepth (d.resolveType (pointerTo^[n] type)) =
          pointerDepth (d.resolveType type) + n)) := by
  constructor
  · obtain ⟨lookups, hwalk, hle⟩ := exists_walk (.nil d.typedefs) (trim_baseName type)
      (trailingPart type)
    refine ⟨lookups, _, fun n r => ⟨hwalk.unique, ?_⟩, hle, d.resolveType_parts type⟩
    rintro ⟨rfl, rfl⟩
    exact hwalk
  · intro hne htrimmed
    refine ⟨d.resolveType_pointerTo hne htrimmed, fun hbalanced n => ?_⟩
    rw [d.resolveType_iterate_pointerTo n hne htrimmed, pointerDepth_iterate_pointerTo n hbalanced]

/-- Two typedefs that stand for each other, one of them by way of a pointer. -/
def circularTypedefs : Declarations where
  typedefs := .ofList [("a", "b *"), ("b", "a")]

/-- Two pointers to a typedef that leads back to itself. -/
theorem resolveType_circularTypedefs :
    Text.trimmed "const a" = "const a" ∧
      circularTypedefs.resolveType ("const a" ++ " *") =
        circularTypedefs.resolveType "const a" ++ " *" ∧
      Balanced (circularTypedefs.resolveType "const a").toList ∧
      pointerDepth (circularTypedefs.resolveType (pointerTo^[2] "const a")) =
        pointerDepth (circularTypedefs.resolveType "const a") + 2 := by
  have htrimmed : Text.trimmed "const a" = "const a" := by decide
  have hresolved : circularTypedefs.resolveType "const a" = "const a *" := by decide +kernel
  have hbalanced : Balanced (circularTypedefs.resolveType "const a").toList := by
    rw [hresolved]
    decide
  obtain ⟨hpointer, hdepth⟩ :=
    (circularTypedefs.resolveType_walk "const a").2 (by decide) htrimmed
  exact ⟨htrimmed, hpointer, hbalanced, hdepth hbalanced 2⟩

end TestSynth
