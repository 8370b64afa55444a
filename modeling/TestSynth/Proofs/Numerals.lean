import TestSynth.Proofs.IndexText
import Mathlib.Data.List.Forall2
import Mathlib.Data.Nat.Digits.Defs
import Mathlib.Tactic.IntervalCases

/-!
# Numerals

What is read as an index is a numeral: at most one minus sign, then decimal digits or hexadecimal
digits behind their mark.  There are two exceptions, both because a sign is taken off by hand in
front of a reader that knows signs itself.  The digits are read as an index before the sign is
applied, so the least index, whose opposite is none, is not read from its numeral; and the digits
may have a second sign, of their own.

* `Index.Numeral`, `Index.Misread` : what numerals write, and what is read as one besides them.
* `Index.based?_eq_some` : what is read behind the sign.
* `Index.parse_eq_ok` : what is read of a text.
* `Index.parse_toString_append` : an index is read back from its decimal text, whatever stands
  behind it.
* `Index.parse_eq_ok_iff` : the reading of an index in one statement.
-/

namespace TestSynth

theorem Text.firstWord?_append {s rest : List Char} (hne : s ≠ [])
    (h : ∀ c ∈ s, isBlank c = false) (hrest : ∀ c ∈ rest.head?, isBlank c = true) :
    firstWord? (s ++ rest) = some s := by
  have hword : (s ++ rest).takeWhile (fun c => !isBlank c) = s := by
    rw [List.takeWhile_append_of_pos fun c hc => by simp [h c hc]]
    cases rest with
    | nil => simp
    | cons c rest => rw [List.takeWhile_cons_of_neg (by simp [hrest c rfl]), List.append_nil]
  obtain ⟨c, s, rfl⟩ := List.exists_cons_of_ne_nil hne
  rw [firstWord?, trimStart, List.cons_append, List.dropWhile_cons_of_neg (by simp [h c]),
    ← List.cons_append, hword]

namespace Index

variable {base d m m' : Nat} {c : Char} {s w : List Char} {n n' : Int}

/-! ### Numerals -/

/-- The character is a digit of the base, and its value. -/
def Digit (base : Nat) (c : Char) (d : Nat) : Prop :=
  d < base ∧
    ("0123456789abcdef".toList[d]? = some c ∨ "0123456789ABCDEF".toList[d]? = some c)

/-- Digits, the most significant one first, and the number that they write. -/
def Writes (base : Nat) (s : List Char) (m : Nat) : Prop :=
  s ≠ [] ∧ ∃ ds, List.Forall₂ (Digit base) s ds ∧ m = Nat.ofDigits base ds.reverse

/-- A number in decimal, or in hexadecimal behind a mark. -/
inductive Magnitude : List Char → Nat → Prop
  | decimal {s : List Char} {m : Nat} (h : Writes 10 s m) : Magnitude s m
  | hexadecimal {s : List Char} {m : Nat} (x : Char) (hx : x = 'x' ∨ x = 'X') (h : Writes 16 s m) :
    Magnitude ('0' :: x :: s) m

/-- A number with at most one minus sign. -/
inductive Numeral : List Char → Int → Prop
  | plain {s : List Char} {m : Nat} (h : Magnitude s m) : Numeral s m
  | negative {s : List Char} {m : Nat} (h : Magnitude s m) : Numeral ('-' :: s) (-m)

/-- Digits behind a sign of their own. -/
inductive Signed (base : Nat) : List Char → Int → Prop
  | plus {s : List Char} {m : Nat} (h : Writes base s m) : Signed base ('+' :: s) m
  | minus {s : List Char} {m : Nat} (h : Writes base s m) : Signed base ('-' :: s) (-m)

/-- A number whose digits have a sign of their own, behind the mark of their base. -/
inductive OwnSigned : List Char → Int → Prop
  | decimal {s : List Char} {n : Int} (h : Signed 10 s n) : OwnSigned s n
  | hexadecimal {s : List Char} {n : Int} (x : Char) (hx : x = 'x' ∨ x = 'X') (h : Signed 16 s n) :
    OwnSigned ('0' :: x :: s) n

/-- A word that is read as an index though it is no numeral: its digits have a sign of their own,
that is not the minus sign in front of the word. -/
inductive Misread : List Char → Int → Prop
  | plain {w : List Char} {n : Int} (hminus : w.head? ≠ some '-') (h : OwnSigned w n)
    (hrange : inRange n = true) : Misread w n
  | negated {s : List Char} {n : Int} (h : OwnSigned s n) (hrange : inRange n = true) :
    Misread ('-' :: s) (negate n)

theorem inRange_iff : inRange n = true ↔ least ≤ n ∧ n ≤ greatest := by
  rw [inRange, Bool.and_eq_true, decide_eq_true_eq, decide_eq_true_eq]

/-! ### Digits -/

theorem Digit.digit? (h : Digit base c d) (hbase : base ≤ 16) : digit? base c = some d := by
  obtain ⟨hd, hc⟩ := h
  have hd16 : d < 16 := by omega
  interval_cases d <;> rcases hc with hc | hc <;> obtain rfl := Option.some.inj hc <;>
    exact if_pos (decide_eq_true hd)

/-- A character in a run of characters is told by its place there. -/
theorem eq_ofNat_of_le {first last : Char} (h : (first ≤ c && c ≤ last) = true) :
    ∃ k, k ≤ last.toNat - first.toNat ∧ c = Char.ofNat (first.toNat + k) ∧
      c.toNat - first.toNat = k := by
  rw [Bool.and_eq_true, decide_eq_true_eq, decide_eq_true_eq, Char.le_def, Char.le_def,
    UInt32.le_iff_toNat_le, UInt32.le_iff_toNat_le] at h
  obtain ⟨hfirst, hlast⟩ : first.toNat ≤ c.toNat ∧ c.toNat ≤ last.toNat := h
  refine ⟨c.toNat - first.toNat, Nat.sub_le_sub_right hlast _, ?_, rfl⟩
  rw [Nat.add_sub_cancel' hfirst, Char.ofNat_toNat]

theorem digit_of_digit? (h : digit? base c = some d) : Digit base c d := by
  obtain ⟨hvalue, hd⟩ := Option.filter_eq_some_iff.1 h
  refine ⟨of_decide_eq_true hd, ?_⟩
  split at hvalue
  · next hc =>
    obtain ⟨k, hk, rfl, hvalue'⟩ := eq_ofNat_of_le hc
    rw [hvalue'] at hvalue
    obtain rfl := Option.some.inj hvalue
    have hk' : k < 10 := Nat.lt_succ_of_le hk
    left
    interval_cases k <;> rfl
  · split at hvalue
    · next hc =>
      obtain ⟨k, hk, rfl, hvalue'⟩ := eq_ofNat_of_le hc
      rw [hvalue'] at hvalue
      obtain rfl := Option.some.inj hvalue
      have hk' : k < 6 := Nat.lt_succ_of_le hk
      left
      interval_cases k <;> rfl
    · split at hvalue
      · next hc =>
        obtain ⟨k, hk, rfl, hvalue'⟩ := eq_ofNat_of_le hc
        rw [hvalue'] at hvalue
        obtain rfl := Option.some.inj hvalue
        have hk' : k < 6 := Nat.lt_succ_of_le hk
        right
        interval_cases k <;> rfl
      · cases hvalue

theorem digitsFrom?_eq_some (hbase : base ≤ 16) {read : Nat} :
    digitsFrom? base read s = some m ↔
      ∃ ds, List.Forall₂ (Digit base) s ds ∧ m = ds.foldl (fun n d => base * n + d) read := by
  induction s generalizing read with
  | nil => simp [digitsFrom?, List.forall₂_nil_left_iff, eq_comm]
  | cons c s ih =>
    rw [digitsFrom?, Option.bind_eq_some_iff]
    constructor
    · rintro ⟨d, hd, hs⟩
      obtain ⟨ds, hds, rfl⟩ := ih.1 hs
      exact ⟨d :: ds, .cons (digit_of_digit? hd) hds, rfl⟩
    · rintro ⟨_, hds, rfl⟩
      cases hds with
      | cons hd hds => exact ⟨_, hd.digit? hbase, ih.2 ⟨_, hds, rfl⟩⟩

theorem natural?_eq_some (hbase : base ≤ 16) : natural? base s = some m ↔ Writes base s m := by
  have hvalue (ds : List Nat) :
      Nat.ofDigits base ds.reverse = ds.foldl (fun n d => base * n + d) 0 := by
    rw [Nat.ofDigits_eq_foldr, List.foldr_reverse]
    simp only [Nat.cast_id, Nat.add_comm]
  rw [natural?, Writes]
  cases s with
  | nil => simp
  | cons c s =>
    simp only [List.isEmpty_cons, Bool.false_eq_true, if_false, digitsFrom?_eq_some hbase, hvalue,
      ne_eq, List.cons_ne_nil, not_false_eq_true, true_and]

theorem Writes.unique (hbase : base ≤ 16) (h : Writes base s m) (h' : Writes base s m') : m = m' :=
  Option.some.inj (((natural?_eq_some hbase).2 h).symm.trans ((natural?_eq_some hbase).2 h'))

theorem Writes.head?_ne (hbase : base ≤ 16) (h : Writes base s m) :
    s.head? ≠ some '-' ∧ s.head? ≠ some '+' := by
  obtain ⟨hne, ds, hds, -⟩ := h
  cases hds with
  | nil => exact absurd rfl hne
  | cons hd hds =>
    have hdigit := hd.digit? hbase
    constructor <;> rintro ⟨⟩ <;> cases hdigit

theorem not_writes_mark {x : Char} (hx : x = 'x' ∨ x = 'X') : ¬Writes 10 ('0' :: x :: s) m := by
  rintro ⟨-, ds, hds, -⟩
  cases hds with
  | cons _ hds =>
    cases hds with
    | cons hd _ =>
      have hdigit := hd.digit? (by decide)
      rcases hx with rfl | rfl <;> cases hdigit

/-! ### Signs -/

theorem Signed.not_writes (hbase : base ≤ 16) (h : Signed base s n) : ¬Writes base s m := by
  intro hdigits
  obtain ⟨hminus, hplus⟩ := hdigits.head?_ne hbase
  cases h with
  | plus _ => exact hplus rfl
  | minus _ => exact hminus rfl

/-- What a reader reads that knows signs itself. -/
theorem signed?_eq_some (hbase : base ≤ 16) :
    signed? base s = some n ↔
      inRange n = true ∧ ((∃ m : Nat, Writes base s m ∧ n = m) ∨ Signed base s n) := by
  have hread (f : Int → Int) (s : List Char) :
      Option.map f (do return (← natural? base s)) = some n ↔
        ∃ m : Nat, Writes base s m ∧ n = f m := by
    simp [← natural?_eq_some hbase, Option.bind_eq_some_iff, @eq_comm _ n]
  unfold signed?
  rw [Option.filter_eq_some_iff, and_comm]
  refine and_congr_right fun _ => ?_
  split
  · next s =>
    have hdigits : ¬∃ m : Nat, Writes base ('-' :: s) m ∧ n = m :=
      fun ⟨_, hm, _⟩ => (hm.head?_ne hbase).1 rfl
    rw [hread, or_iff_right hdigits]
    constructor
    · rintro ⟨m, hm, rfl⟩
      exact .minus hm
    · rintro (_ | h)
      exact ⟨_, h, rfl⟩
  · next s =>
    have hdigits : ¬∃ m : Nat, Writes base ('+' :: s) m ∧ n = m :=
      fun ⟨_, hm, _⟩ => (hm.head?_ne hbase).2 rfl
    rw [hread, or_iff_right hdigits]
    constructor
    · rintro ⟨m, hm, rfl⟩
      exact .plus hm
    · rintro (h | _)
      exact ⟨_, h, rfl⟩
  · next hminus hplus =>
    have hsigned : ¬Signed base s n := by
      rintro (h | h)
      · exact hplus _ rfl
      · exact hminus _ rfl
    rw [hread, or_iff_left hsigned]

/-- **What is read behind the sign of a word**: a number in range, that may have a sign of its
own. -/
theorem based?_eq_some :
    based? s = some n ↔
      inRange n = true ∧ ((∃ m : Nat, Magnitude s m ∧ n = m) ∨ OwnSigned s n) := by
  have hmarked {x : Char} {s : List Char} (hx : x = 'x' ∨ x = 'X') :
      ((∃ m : Nat, Writes 16 s m ∧ n = m) ∨ Signed 16 s n) ↔
        (∃ m : Nat, Magnitude ('0' :: x :: s) m ∧ n = m) ∨ OwnSigned ('0' :: x :: s) n := by
    refine or_congr (exists_congr fun m => and_congr_left fun _ => ?_) ?_
    · refine ⟨.hexadecimal x hx, fun h => ?_⟩
      cases h with
      | decimal h => exact absurd h (not_writes_mark hx)
      | hexadecimal _ _ h => exact h
    · refine ⟨.hexadecimal x hx, fun h => ?_⟩
      cases h with
      | decimal h => cases h
      | hexadecimal _ _ h => exact h
  unfold based?
  split
  · rw [signed?_eq_some (by decide), hmarked (.inl rfl)]
  · rw [signed?_eq_some (by decide), hmarked (.inr rfl)]
  · next hx hX =>
    have hmark {x : Char} {s' : List Char} (h : x = 'x' ∨ x = 'X') : s ≠ '0' :: x :: s' := by
      rcases h with rfl | rfl
      · exact hx s'
      · exact hX s'
    rw [signed?_eq_some (by decide)]
    refine and_congr_right fun _ => or_congr (exists_congr fun m => and_congr_left fun _ => ?_) ?_
    · refine ⟨.decimal, fun h => ?_⟩
      cases h with
      | decimal h => exact h
      | hexadecimal x h _ => exact absurd rfl (hmark h)
    · refine ⟨.decimal, fun h => ?_⟩
      cases h with
      | decimal h => exact h
      | hexadecimal x h _ => exact absurd rfl (hmark h)

/-! ### Words -/

theorem Magnitude.head?_ne (h : Magnitude s m) : s.head? ≠ some '-' := by
  cases h with
  | decimal h => exact (h.head?_ne (by decide)).1
  | hexadecimal => exact nofun

theorem Magnitude.not_ownSigned (h : Magnitude s m) : ¬OwnSigned s n := by
  intro hown
  cases h with
  | decimal h =>
    cases hown with
    | decimal hown => exact hown.not_writes (by decide) h
    | hexadecimal _ hx _ => exact not_writes_mark hx h
  | hexadecimal _ _ h =>
    cases hown with
    | decimal hown => cases hown
    | hexadecimal _ _ hown => exact hown.not_writes (by decide) h

theorem Magnitude.unique (h : Magnitude s m) (h' : Magnitude s m') : m = m' := by
  cases h with
  | decimal h =>
    cases h' with
    | decimal h' => exact h.unique (by decide) h'
    | hexadecimal _ hx _ => exact absurd h (not_writes_mark hx)
  | hexadecimal _ hx h =>
    cases h' with
    | decimal h' => exact absurd h' (not_writes_mark hx)
    | hexadecimal _ _ h' => exact h.unique (by decide) h'

theorem Numeral.unique (h : Numeral w n) (h' : Numeral w n') : n = n' := by
  cases h with
  | plain h =>
    cases h' with
    | plain h' => rw [h.unique h']
    | negative => exact absurd rfl h.head?_ne
  | negative h =>
    cases h' with
    | plain h' => exact absurd rfl h'.head?_ne
    | negative h' => rw [h.unique h']

theorem Numeral.not_misread (h : Numeral w n) : ¬Misread w n' := by
  intro hmisread
  cases h with
  | plain h =>
    cases hmisread with
    | plain _ hown _ => exact h.not_ownSigned hown
    | negated => exact h.head?_ne rfl
  | negative h =>
    cases hmisread with
    | plain hminus _ _ => exact hminus rfl
    | negated hown _ => exact h.not_ownSigned hown

theorem negate_natCast (m : Nat) : negate m = -m := by
  rw [negate, if_neg]
  have hleast : least < 0 := by decide
  omega

theorem neg_greatest : -greatest = least + 1 := by decide

/-- **What is read of a word**: a numeral, unless it writes the least index, and what is misread. -/
theorem ofWord?_eq_some :
    ofWord? w = some n ↔ (Numeral w n ∧ least < n ∧ n ≤ greatest) ∨ Misread w n := by
  have hleast : least < 0 := by decide
  have hgreatest : 0 < greatest := by decide
  have hopposite := neg_greatest
  unfold ofWord?
  split
  · next s =>
    -- what is read behind the minus sign is negated
    rw [Option.map_eq_some_iff]
    constructor
    · rintro ⟨k, hk, rfl⟩
      obtain ⟨hrange, ⟨m, hm, rfl⟩ | hown⟩ := based?_eq_some.1 hk
      · obtain ⟨-, hhigh⟩ := inRange_iff.1 hrange
        rw [negate_natCast]
        exact .inl ⟨.negative hm, by omega, by omega⟩
      · exact .inr (.negated hown hrange)
    · rintro (⟨hnumeral, hlow, -⟩ | hmisread)
      · cases hnumeral with
        | plain h => exact absurd rfl h.head?_ne
        | @negative _ m h =>
          have hrange : inRange m = true := inRange_iff.2 ⟨by omega, by omega⟩
          exact ⟨m, based?_eq_some.2 ⟨hrange, .inl ⟨m, h, rfl⟩⟩, negate_natCast m⟩
      · cases hmisread with
        | plain hminus _ _ => exact absurd rfl hminus
        | negated hown hrange => exact ⟨_, based?_eq_some.2 ⟨hrange, .inr hown⟩, rfl⟩
  · next hminus =>
    have hhead : w.head? ≠ some '-' := by
      intro h
      obtain ⟨s, rfl⟩ := List.head?_eq_some_iff.1 h
      exact hminus s rfl
    rw [based?_eq_some]
    constructor
    · rintro ⟨hrange, ⟨m, hm, rfl⟩ | hown⟩
      · exact .inl ⟨.plain hm, by omega, (inRange_iff.1 hrange).2⟩
      · exact .inr (.plain hhead hown hrange)
    · rintro (⟨hnumeral, hlow, hhigh⟩ | hmisread)
      · refine ⟨inRange_iff.2 ⟨hlow.le, hhigh⟩, .inl ?_⟩
        cases hnumeral with
        | plain h => exact ⟨_, h, rfl⟩
        | negative => exact absurd rfl hhead
      · cases hmisread with
        | plain _ hown hrange => exact ⟨hrange, .inr hown⟩
        | negated => exact absurd rfl hhead

/-! ### Texts -/

variable {text : String}

theorem parse_eq_ok :
    parse text = .ok n ↔ ∃ w, Text.firstWord? text.toList = some w ∧
      (Numeral w n ∧ least < n ∧ n ≤ greatest ∨ Misread w n) := by
  have hparse : parse text = .ok n ↔ (Text.firstWord? text.toList).bind ofWord? = some n := by
    rw [parse]
    cases (Text.firstWord? text.toList).bind ofWord? <;> simp
  simp only [hparse, Option.bind_eq_some_iff, ofWord?_eq_some]

theorem parse_eq_error (h : ∀ n, parse text ≠ .ok n) :
    parse text = .error (.invalidIndex text) := by
  rw [parse] at h ⊢
  cases hn : (Text.firstWord? text.toList).bind ofWord? with
  | none => rfl
  | some n => rw [hn] at h; exact absurd rfl (h n)

theorem numeral_toString (i : Int) : Numeral (toString i).toList i := by
  have hrepr (m : Nat) : Magnitude m.repr.toList m :=
    .decimal ((natural?_eq_some (by decide)).1 (natural?_repr m))
  cases i with
  | ofNat m => exact .plain (hrepr m)
  | negSucc m =>
    rw [toString_neg_succ, String.toList_append]
    exact .negative (hrepr (m + 1))

/-- **An index is read back from its decimal text**, whatever stands behind it, unless it is the
least one. -/
theorem parse_toString_append {i : Int} {width : String} (hlow : least ≤ i)
    (hhigh : i ≤ greatest) (hblank : ∀ c ∈ width.toList.head?, Text.isBlank c = true) :
    parse (toString i ++ width) =
      if i = least then .error (.invalidIndex (toString i ++ width)) else .ok i := by
  have hword : Text.firstWord? (toString i ++ width).toList = some (toString i).toList := by
    rw [String.toList_append]
    exact Text.firstWord?_append (toString_ne_nil i) (fun c => not_isBlank_of_mem) hblank
  have hnumeral := numeral_toString i
  split
  · next hleast =>
    refine parse_eq_error fun n hn => ?_
    obtain ⟨w, hw, ⟨hn, hlow, -⟩ | hmisread⟩ := parse_eq_ok.1 hn
    · obtain rfl := Option.some.inj (hword.symm.trans hw)
      exact absurd (hn.unique hnumeral) (by omega)
    · obtain rfl := Option.some.inj (hword.symm.trans hw)
      exact hnumeral.not_misread hmisread
  · next hleast => exact parse_eq_ok.2 ⟨_, hword, .inl ⟨hnumeral, by omega, hhigh⟩⟩

/-- The sign of a word is applied to an index.  The opposite is an index as well, unless the digits
write the least one with a sign of their own. -/
theorem inRange_neg (h : based? s = some n) :
    inRange n = true ∧ (inRange (-n) = true ↔ ¬OwnSigned s least) := by
  obtain ⟨hrange, hread⟩ := based?_eq_some.1 h
  obtain ⟨hlow, hhigh⟩ := inRange_iff.1 hrange
  have hopposite := neg_greatest
  have hneg : least < 0 := by decide
  have hleast : OwnSigned s least ↔ n = least := by
    constructor
    · intro hown
      exact Option.some.inj (h.symm.trans (based?_eq_some.2 ⟨by decide, .inr hown⟩))
    · rintro rfl
      refine hread.resolve_left ?_
      rintro ⟨m, -, hm⟩
      omega
  refine ⟨hrange, ?_⟩
  rw [hleast, inRange_iff]
  omega

/-- A text is read as its numeral says, unless that writes the least index or the text is
misread. -/
theorem parse_eq_numeral_iff :
    (∀ n, parse text = .ok n ↔
        ∃ w, Text.firstWord? text.toList = some w ∧ Numeral w n ∧ inRange n = true) ↔
      ∀ w, Text.firstWord? text.toList = some w → ¬Numeral w least ∧ ∀ n, ¬Misread w n := by
  simp only [parse_eq_ok]
  constructor
  · intro h w hw
    have hmisread (n : Int) : ¬Misread w n := by
      intro hmisread
      obtain ⟨w', hw', hnumeral, -⟩ := (h n).1 ⟨w, hw, .inr hmisread⟩
      obtain rfl := Option.some.inj (hw.symm.trans hw')
      exact hnumeral.not_misread hmisread
    refine ⟨fun hnumeral => ?_, hmisread⟩
    obtain ⟨w', hw', ⟨-, hlow, -⟩ | h⟩ := (h least).2 ⟨w, hw, hnumeral, by decide⟩
    · exact absurd hlow (lt_irrefl least)
    · obtain rfl := Option.some.inj (hw.symm.trans hw')
      exact hmisread least h
  · intro h n
    refine exists_congr fun w => and_congr_right fun hw => ?_
    obtain ⟨hleast, hmisread⟩ := h w hw
    rw [or_iff_left (hmisread n), inRange_iff]
    refine and_congr_right fun hnumeral => and_congr_left fun _ => ?_
    refine ⟨Int.le_of_lt, fun hlow => lt_of_le_of_ne hlow ?_⟩
    rintro rfl
    exact hleast hnumeral

/-- **How a text is read as an index**: as the number that its first word writes, if that is a
numeral of any index but the least one, or is misread; any other text is an error.  It is read as
its numeral says exactly if its first word is neither misread nor a numeral of the least index.
Only the opposite of the least index is taken out of range, if at all, and every other index is
read back from its decimal text. -/
theorem parse_eq_ok_iff (text : String) :
    (∀ n, parse text = .ok n ↔ ∃ w, Text.firstWord? text.toList = some w ∧
        (Numeral w n ∧ least < n ∧ n ≤ greatest ∨ Misread w n)) ∧
      ((∀ n, parse text = .ok n ↔
          ∃ w, Text.firstWord? text.toList = some w ∧ Numeral w n ∧ inRange n = true) ↔
        ∀ w, Text.firstWord? text.toList = some w → ¬Numeral w least ∧ ∀ n, ¬Misread w n) ∧
      ((∀ n, parse text ≠ .ok n) → parse text = .error (.invalidIndex text)) ∧
      (∀ s n, Text.firstWord? text.toList = some ('-' :: s) → based? s = some n →
        inRange n = true ∧ (inRange (-n) = true ↔ ¬OwnSigned s least)) ∧
      ∀ (i : Int) (width : String), text = toString i ++ width → least ≤ i →
        i ≤ greatest → (∀ c ∈ width.toList.head?, Text.isBlank c = true) →
        parse text = if i = least then .error (.invalidIndex text) else .ok i := by
  refine ⟨fun n => parse_eq_ok, parse_eq_numeral_iff, parse_eq_error,
    fun s n _ hs => inRange_neg hs, ?_⟩
  rintro i width rfl hlow hhigh hblank
  exact parse_toString_append hlow hhigh hblank

/-- The least index is not read from its numeral, and a number with two signs is read though it is
no numeral. -/
theorem not_parse_numerals :
    (¬∀ (text : String) (w : List Char) (n : Int), Text.firstWord? text.toList = some w →
        Numeral w n → inRange n = true → parse text = .ok n) ∧
      ¬∀ (text : String) (n : Int), parse text = .ok n →
        ∃ w, Text.firstWord? text.toList = some w ∧ Numeral w n := by
  constructor
  · intro hclaim
    have hparse : parse "-9223372036854775808" = .ok least :=
      hclaim _ (toString least).toList least (by decide +kernel) (numeral_toString least)
        (by decide)
    exact absurd hparse (by decide +kernel)
  · intro hclaim
    obtain ⟨w, hw, hnumeral⟩ := hclaim "--5" 5 (by decide +kernel)
    have hword : Text.firstWord? "--5".toList = some ['-', '-', '5'] := by decide +kernel
    obtain rfl := Option.some.inj (hword.symm.trans hw)
    have hfive : Writes 10 ['5'] 5 := (natural?_eq_some (by decide)).1 (by decide +kernel)
    exact hnumeral.not_misread (.negated (.decimal (.minus hfive)) (by decide))

end Index

end TestSynth
