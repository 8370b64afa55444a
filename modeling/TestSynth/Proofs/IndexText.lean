import TestSynth.Value.Index
import Mathlib.Data.List.TakeWhile

/-!
# The text of an index

An index that is written in decimal is read back (`Index.parse_toString`), as long as its opposite
is an index as well: the sign is taken off before the digits are read, so the least index cannot be
written this way.
-/

namespace TestSynth

namespace Text

theorem toNat_of_isDigit {c : Char} (h : c.isDigit = true) : 48 ≤ c.toNat ∧ c.toNat ≤ 57 := by
  simp only [Char.isDigit, Bool.and_eq_true, decide_eq_true_eq, ge_iff_le,
    UInt32.le_iff_toNat_le] at h
  exact h

theorem isBlank_of_isDigit {c : Char} (h : c.isDigit = true) : isBlank c = false := by
  obtain ⟨hlow, hhigh⟩ := toNat_of_isDigit h
  simp only [isBlank, Bool.or_eq_false_iff, Bool.and_eq_false_iff, beq_eq_false_iff_ne,
    decide_eq_false_iff_not, ne_eq]
  omega

theorem trimStart_of_not_blank {s : List Char} (h : ∀ c ∈ s, isBlank c = false) :
    trimStart s = s := by
  cases s with
  | nil => rfl
  | cons c s => rw [trimStart, List.dropWhile_cons_of_neg (by simp [h c List.mem_cons_self])]

theorem trim_of_not_blank {s : List Char} (h : ∀ c ∈ s, isBlank c = false) : trim s = s := by
  have hrev : s.reverse.dropWhile isBlank = s.reverse :=
    trimStart_of_not_blank fun c hc => h c (List.mem_reverse.1 hc)
  rw [trim, trimStart_of_not_blank h, trimEnd, hrev, List.reverse_reverse]

theorem firstWord?_of_not_blank {s : List Char} (hne : s ≠ []) (h : ∀ c ∈ s, isBlank c = false) :
    firstWord? s = some s := by
  have hword : s.takeWhile (fun c => !isBlank c) = s :=
    List.takeWhile_eq_self_iff.2 fun c hc => by simp [h c hc]
  rw [firstWord?, trimStart_of_not_blank h, hword]
  cases s with
  | nil => exact absurd rfl hne
  | cons c s => rfl

end Text

namespace Index

theorem digit?_ten {c : Char} (h : c.isDigit = true) :
    digit? 10 c = some (c.toNat - '0'.toNat) := by
  obtain ⟨hlow, hhigh⟩ := Text.toNat_of_isDigit h
  have hdigit : ('0' ≤ c && c ≤ '9') = true := by
    rw [Bool.and_eq_true, decide_eq_true_eq, decide_eq_true_eq, Char.le_def, Char.le_def,
      UInt32.le_iff_toNat_le, UInt32.le_iff_toNat_le]
    exact ⟨hlow, hhigh⟩
  have hlt : c.toNat - '0'.toNat < 10 := by
    show c.toNat - 48 < 10
    omega
  simp only [digit?, hdigit, if_true, Option.filter_some, decide_eq_true_eq, hlt]

/-- Decimal digits are read one after the other, most significant first. -/
theorem digitsFrom?_ten {s : List Char} (h : ∀ c ∈ s, c.isDigit = true) (read : Nat) :
    digitsFrom? 10 read s = some (Nat.ofDigitChars 10 s read) := by
  induction s generalizing read with
  | nil => simp [digitsFrom?]
  | cons c s ih =>
    rw [digitsFrom?, digit?_ten (h c List.mem_cons_self), Option.bind_some,
      ih fun d hd => h d (List.mem_cons_of_mem c hd), Nat.ofDigitChars_cons]

theorem isDigit_of_mem_repr {n : Nat} {c : Char} (h : c ∈ n.repr.toList) : c.isDigit = true := by
  rw [Nat.toList_repr] at h
  exact Nat.isDigit_of_mem_toDigits (by decide) (by decide) h

theorem natural?_repr (n : Nat) : natural? 10 n.repr.toList = some n := by
  have hne : n.repr.toList.isEmpty = false := by simp
  rw [natural?, hne, digitsFrom?_ten fun c hc => isDigit_of_mem_repr hc, Nat.toList_repr,
    Nat.ofDigitChars_ten_toDigits]
  rfl

theorem repr_inj {m n : Nat} (h : m.repr.toList = n.repr.toList) : m = n := by
  have hread := natural?_repr m
  rw [h, natural?_repr] at hread
  exact (Option.some.inj hread).symm

theorem based?_of_isDigit {s : List Char} (h : ∀ c ∈ s, c.isDigit = true) :
    based? s = ((natural? 10 s).map fun n => (n : Int)).filter inRange := by
  unfold based?
  split
  · exact absurd (h 'x' (by simp)) (by decide)
  · exact absurd (h 'X' (by simp)) (by decide)
  · unfold signed?
    split
    · exact absurd (h '-' (by simp)) (by decide)
    · exact absurd (h '+' (by simp)) (by decide)
    · rfl

theorem based?_repr {n : Nat} (h : (n : Int) ≤ greatest) :
    based? n.repr.toList = some (n : Int) := by
  have hrange : inRange n = true := by
    simp only [inRange, Bool.and_eq_true, decide_eq_true_eq]
    exact ⟨Int.le_trans (by decide) (Int.natCast_nonneg n), h⟩
  rw [based?_of_isDigit fun c hc => isDigit_of_mem_repr hc, natural?_repr]
  simp [hrange]

theorem toString_neg_succ (n : Nat) : toString (Int.negSucc n) = "-" ++ (n + 1).repr := rfl

theorem isDigit_or_minus_of_mem {i : Int} {c : Char} (h : c ∈ (toString i).toList) :
    c.isDigit = true ∨ c = '-' := by
  cases i with
  | ofNat n => exact .inl (isDigit_of_mem_repr (n := n) h)
  | negSucc n =>
    rw [toString_neg_succ, String.toList_append, List.mem_append] at h
    rcases h with h | h
    · exact .inr (by simpa using h)
    · exact .inl (isDigit_of_mem_repr h)

theorem toString_ne_nil (i : Int) : (toString i).toList ≠ [] := by
  cases i with
  | ofNat n =>
    show n.repr.toList ≠ []
    simp
  | negSucc n =>
    rw [toString_neg_succ, String.toList_append]
    simp

theorem ofWord?_toString {i : Int} (hlow : least < i) (hhigh : i ≤ greatest) :
    ofWord? (toString i).toList = some i := by
  cases i with
  | ofNat n =>
    show ofWord? n.repr.toList = some (n : Int)
    unfold ofWord?
    split
    · next s hs =>
      exact absurd (isDigit_of_mem_repr (n := n) (c := '-') (by rw [hs]; simp)) (by decide)
    · exact based?_repr hhigh
  | negSucc n =>
    -- the digits alone are in range, since the index is not the least one
    have hn : ((n + 1 : Nat) : Int) ≤ greatest := by
      simp only [least, greatest] at hlow ⊢
      omega
    have hne : ((n + 1 : Nat) : Int) ≠ least := by
      simp only [least]
      omega
    rw [toString_neg_succ, String.toList_append]
    show (based? (n + 1).repr.toList).map negate = _
    rw [based?_repr hn, Option.map_some, negate, if_neg hne]
    rfl

theorem not_isBlank_of_mem {i : Int} {c : Char} (h : c ∈ (toString i).toList) :
    Text.isBlank c = false := by
  rcases isDigit_or_minus_of_mem h with h | rfl
  · exact Text.isBlank_of_isDigit h
  · decide

theorem trimmed_toString (i : Int) : Text.trimmed (toString i) = toString i := by
  rw [Text.trimmed, Text.trim_of_not_blank fun c => not_isBlank_of_mem, String.ofList_toList]

/-- **An index is read back from its decimal text.** -/
theorem parse_toString {i : Int} (hlow : least < i) (hhigh : i ≤ greatest) :
    parse (toString i) = .ok i := by
  rw [parse, Text.firstWord?_of_not_blank (toString_ne_nil i) fun c => not_isBlank_of_mem,
    Option.bind_some, ofWord?_toString hlow hhigh]

end Index

end TestSynth
