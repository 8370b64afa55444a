/-!
# Cutting text

`after?` takes a mark off the front of a text, `pieces` cuts at every separator, `splitOnce` at the
first occurrence of a mark. They lose only marks and separators: nothing is trimmed and empty pieces
stay.
-/

namespace TestSynth.Text

/-- What follows `mark` in a text that begins with it. -/
def after? : List Char → List Char → Option (List Char)
  | [], s => some s
  | _ :: _, [] => none
  | m :: mark, c :: s => if m = c then after? mark s else none

/-- What precedes `mark` in a text that ends in it. -/
def before? (mark s : List Char) : Option (List Char) :=
  (after? mark.reverse s.reverse).map List.reverse

/-- The pieces between separators, one more than there are separators. -/
def pieces (isSep : Char → Bool) : List Char → List (List Char)
  | [] => [[]]
  | c :: s =>
    match isSep c, pieces isSep s with
    | true, ps => [] :: ps
    | false, [] => [[c]]
    | false, p :: ps => (c :: p) :: ps

/-- The texts before and after the first occurrence of `mark`. -/
def splitOnce (mark : List Char) : List Char → Option (List Char × List Char)
  | [] => (after? mark []).map fun rest => ([], rest)
  | c :: s =>
    match after? mark (c :: s) with
    | some rest => some ([], rest)
    | none => (splitOnce mark s).map fun (before, rest) => (c :: before, rest)

theorem after?_eq_some {mark s rest : List Char} :
    after? mark s = some rest ↔ s = mark ++ rest := by
  induction mark generalizing s with
  | nil => simp [after?]
  | cons m mark ih =>
    cases s with
    | nil => simp [after?]
    | cons c s =>
      by_cases h : m = c
      · simp [after?, h, ih]
      · simp [after?, h, Ne.symm h]

/-! ### Splits -/

/-- A text that is split is put together from the mark and what is before and behind it. -/
theorem eq_append_of_splitOnce {mark s before rest : List Char}
    (h : splitOnce mark s = some (before, rest)) : s = before ++ mark ++ rest := by
  induction s generalizing before with
  | nil =>
    obtain ⟨rest', hafter, heq⟩ := Option.map_eq_some_iff.1 h
    cases heq
    exact after?_eq_some.1 hafter
  | cons c s ih =>
    rw [splitOnce] at h
    split at h
    · next rest' hafter =>
      cases h
      exact after?_eq_some.1 hafter
    · obtain ⟨⟨before', rest'⟩, hsplit, heq⟩ := Option.map_eq_some_iff.1 h
      cases heq
      rw [ih hsplit]
      simp

theorem splitOnce_eq_none {mark s : List Char} (h : ¬mark <:+: s) : splitOnce mark s = none := by
  cases hsplit : splitOnce mark s with
  | none => rfl
  | some entry => exact absurd ⟨entry.1, entry.2, (eq_append_of_splitOnce hsplit).symm⟩ h

/-! ### Pieces -/

variable {isSep : Char → Bool}

theorem pieces_ne_nil (s : List Char) : pieces isSep s ≠ [] := by
  induction s with
  | nil => simp [pieces]
  | cons c s ih =>
    unfold pieces
    split
    · simp
    · simp
    · simp

theorem pieces_cons_of_sep {c : Char} (hc : isSep c = true) (s : List Char) :
    pieces isSep (c :: s) = [] :: pieces isSep s := by
  rw [pieces, hc]

theorem pieces_cons_of_not_sep {c : Char} (hc : isSep c = false) {s p : List Char}
    {ps : List (List Char)} (h : pieces isSep s = p :: ps) :
    pieces isSep (c :: s) = (c :: p) :: ps := by
  rw [pieces, hc, h]

theorem pieces_append_sep {c : Char} (hc : isSep c = true) (s t : List Char) :
    pieces isSep (s ++ c :: t) = pieces isSep s ++ pieces isSep t := by
  induction s with
  | nil => rw [List.nil_append, pieces_cons_of_sep hc, pieces, List.singleton_append]
  | cons d s ih =>
    cases hd : isSep d with
    | true =>
      rw [List.cons_append, pieces_cons_of_sep hd, pieces_cons_of_sep hd, ih, List.cons_append]
    | false =>
      obtain ⟨p, ps, hs⟩ := List.exists_cons_of_ne_nil (pieces_ne_nil s)
      rw [hs, List.cons_append] at ih
      rw [List.cons_append, pieces_cons_of_not_sep hd ih, pieces_cons_of_not_sep hd hs,
        List.cons_append]

theorem pieces_of_not_sep {s : List Char} (h : ∀ c ∈ s, isSep c = false) :
    pieces isSep s = [s] := by
  induction s with
  | nil => rfl
  | cons c s ih =>
    exact pieces_cons_of_not_sep (h c List.mem_cons_self)
      (ih fun d hd => h d (List.mem_cons_of_mem c hd))

end TestSynth.Text
