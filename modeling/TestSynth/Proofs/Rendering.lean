import TestSynth.Proofs.IndexText
import TestSynth.Proofs.Lexing
import TestSynth.Proofs.TypedefWalk
import TestSynth.Expr

/-!
# Reading expressions

The text of an expression determines it.  A parenthesis at the beginning of the text is closed
somewhere: if a space follows there, it was around the type of a cast, and all the rest is what is
cast; otherwise it was around a cast that something is taken from.  What is taken stands behind, one
access after the other.

* `Expr.group?` : the text in parentheses at the beginning of a text, and what follows it.
* `Expr.accesses` : what is taken from an expression by the accesses behind it.
* `Expr.read` : the expression of a text.
* `Expr.Legible` : names without delimiters, and types with balanced parentheses.
* `Expr.render_injective` : legible expressions are read back, so no two have the same text.
-/

namespace TestSynth

open TypeSpelling (Balanced Closable nestingAfter)

namespace Expr

/-! ### The reader -/

/-- The text up to the parenthesis that closes the outermost one, when `nesting` more are open, and
what follows it. -/
def group? : (nesting : Nat) → List Char → Option (List Char × List Char)
  | _, [] => none
  | nesting, '(' :: s => (group? (nesting + 1) s).map fun (inside, rest) => ('(' :: inside, rest)
  | 0, ')' :: s => some ([], s)
  | nesting + 1, ')' :: s => (group? nesting s).map fun (inside, rest) => (')' :: inside, rest)
  | nesting, c :: s => (group? nesting s).map fun (inside, rest) => (c :: inside, rest)

/-- The word at the beginning of a text, and what follows it. -/
def word? (s : List Char) : Option (String × List Char) :=
  match s.takeWhile Token.isWordChar with
  | [] => none
  | w => some (String.ofList w, s.dropWhile Token.isWordChar)

/-- The number that decimal digits write, perhaps behind a minus sign. -/
def integer? : List Char → Option Int
  | '-' :: s => (Index.natural? 10 s).map fun n : Nat => -(n : Int)
  | s => (Index.natural? 10 s).map fun n : Nat => (n : Int)

theorem length_group?_lt {n : Nat} {s inside rest : List Char}
    (h : group? n s = some (inside, rest)) : inside.length + rest.length < s.length := by
  fun_induction group? n s generalizing inside rest with
  | case1 => cases h
  | case3 s =>
    cases h
    simp
  | case2 n s ih | case4 n s ih | case5 n c s _ _ _ ih =>
    obtain ⟨⟨inside', rest'⟩, hs, heq⟩ := Option.map_eq_some_iff.1 h
    cases heq
    have := ih hs
    simp only [List.length_cons]
    omega

theorem length_word?_lt {s rest : List Char} {w : String} (h : word? s = some (w, rest)) :
    rest.length < s.length := by
  rw [word?] at h
  split at h
  · cases h
  · next hne =>
    cases h
    have hlen := congrArg List.length
      (List.takeWhile_append_dropWhile (p := Token.isWordChar) (l := s))
    have hpos := List.length_pos_iff.2 hne
    rw [List.length_append] at hlen
    omega

/-- What is taken from an expression by the accesses that follow it. -/
def accesses (e : Expr) : List Char → Option Expr
  | [] => some e
  | '[' :: s =>
    match h : s.dropWhile (· != ']') with
    | [] => none
    | _ :: rest =>
      have : rest.length < s.length := by
        have hle := (List.dropWhile_sublist (· != ']') (l := s)).length_le
        rw [h, List.length_cons] at hle
        omega
      (integer? (s.takeWhile (· != ']'))).bind fun i => accesses (index e i) rest
  | '.' :: s =>
    match h : word? s with
    | none => none
    | some (name, rest) =>
      have := length_word?_lt h
      accesses (field e name false) rest
  | '-' :: '>' :: s =>
    match h : word? s with
    | none => none
    | some (name, rest) =>
      have := length_word?_lt h
      accesses (field e name true) rest
  | _ => none
termination_by s => s.length
decreasing_by all_goals simp only [List.length_cons]; omega

/-- The expression of a text. -/
def read : List Char → Option Expr
  | '(' :: s =>
    match h : group? 0 s with
    | none => none
    | some (type, ' ' :: rest) =>
      have := length_group?_lt h
      (read rest).map (cast (String.ofList type))
    | some (inside, rest) =>
      have := length_group?_lt h
      (read inside).bind fun e => e.accesses rest
  | s => (word? s).bind fun (name, rest) => (ident name).accesses rest
termination_by s => s.length
decreasing_by all_goals simp only [List.length_cons] at *; omega

/-! ### Groups -/

theorem group?_cons_of_ne {c : Char} (hopen : c ≠ '(') (hclose : c ≠ ')') (n : Nat)
    (s : List Char) :
    group? n (c :: s) = (group? n s).map fun (inside, rest) => (c :: inside, rest) := by
  rw [group?] <;> simp_all

/-- A text that closes no parenthesis too many stands in the group as it is. -/
theorem group?_append {n : Nat} {s : List Char} (h : Closable n s) (t : List Char) :
    group? n (s ++ t) =
      (group? (nestingAfter n s) t).map fun (inside, rest) => (s ++ inside, rest) := by
  fun_induction nestingAfter n s with
  | case1 n => simp
  | case2 n s ih =>
    rw [List.cons_append, group?, ih h.behind_open, Option.map_map]
    rfl
  | case3 n s ih =>
    have hs := ih h.behind_close
    obtain ⟨m, rfl⟩ := Nat.exists_eq_add_of_le' h.one_le
    rw [List.cons_append, group?]
    rw [Nat.add_sub_cancel] at hs ⊢
    rw [hs, Option.map_map]
    rfl
  | case4 n c s hopen hclose ih =>
    rw [List.cons_append, group?_cons_of_ne hopen hclose, ih (h.behind_other hopen hclose),
      Option.map_map]
    rfl

theorem group?_balanced {s : List Char} (h : Balanced s) (rest : List Char) :
    group? 0 (s ++ ')' :: rest) = some (s, rest) := by
  rw [group?_append h.closable, h.nestingAfter_eq]
  simp [group?]

theorem balanced_group {s : List Char} (h : Balanced s) : Balanced ('(' :: (s ++ [')'])) := by
  refine ⟨fun k hk => ?_, by simp [h.2]⟩
  cases k with
  | zero => simp
  | succ k =>
    have hle := h.1 (min k s.length) (Nat.min_le_right _ _)
    rw [← List.take_eq_take_min] at hle
    have hend : (([')'] : List Char).take (k - s.length)).count ')' ≤ 1 :=
      List.count_le_length.trans (by rw [List.length_take]; exact Nat.min_le_right _ _)
    simp only [List.take_succ_cons, List.take_append, List.count_append, List.count_cons_self,
      List.count_cons_of_ne (show '(' ≠ ')' by decide)]
    omega

theorem balanced_of_not_mem {s : List Char} (hopen : '(' ∉ s) (hclose : ')' ∉ s) : Balanced s := by
  refine ⟨fun k _ => ?_, by rw [List.count_eq_zero.2 hopen, List.count_eq_zero.2 hclose]⟩
  rw [List.count_eq_zero.2 fun h => hclose (List.mem_of_mem_take h)]
  exact Nat.zero_le _

/-! ### Words and numbers -/

/-- A word of the value language: it has no white space that separates tokens, and no delimiter. -/
def IsWord (w : String) : Prop := w ≠ "" ∧ ∀ c ∈ w.toList, Token.isWordChar c = true

instance (w : String) : Decidable (IsWord w) := inferInstanceAs (Decidable (_ ∧ _))

/-- A text that no word at its beginning reaches into: the end, or an access. -/
def Follows (rest : List Char) : Prop := ∀ c, rest.head? = some c → c = '[' ∨ c = '.' ∨ c = '-'

theorem Follows.isWordChar {rest : List Char} (h : Follows rest) (c : Char)
    (hc : rest.head? = some c) : Token.isWordChar c = false := by
  rcases h c hc with rfl | rfl | rfl <;> decide

theorem IsWord.toList_ne_nil {w : String} (h : IsWord w) : w.toList ≠ [] :=
  mt String.toList_eq_nil_iff.1 h.1

theorem IsWord.not_mem {w : String} (h : IsWord w) {c : Char} (hc : Token.isWordChar c = false) :
    c ∉ w.toList := by
  intro hmem
  rw [h.2 c hmem] at hc
  cases hc

theorem word?_append {w : String} (h : IsWord w) {rest : List Char} (hrest : Follows rest) :
    word? (w.toList ++ rest) = some (w, rest) := by
  rw [word?, Text.takeWhile_append_of_head hrest.isWordChar,
    Text.dropWhile_append_of_head hrest.isWordChar, List.takeWhile_eq_self_iff.2 h.2,
    List.dropWhile_eq_nil_iff.2 h.2, List.nil_append]
  split
  · next hnil => exact absurd hnil h.toList_ne_nil
  · rw [String.ofList_toList]

theorem integer?_toString (i : Int) : integer? (toString i).toList = some i := by
  cases i with
  | ofNat n =>
    show integer? n.repr.toList = some (n : Int)
    unfold integer?
    split
    · next s hs =>
      have hmem : '-' ∈ n.repr.toList := by simp [hs]
      exact absurd (Index.isDigit_of_mem_repr hmem) (by decide)
    · rw [Index.natural?_repr, Option.map_some]
  | negSucc n =>
    rw [Index.toString_neg_succ, String.toList_append]
    show (Index.natural? 10 (n + 1).repr.toList).map (fun n : Nat => -(n : Int)) = _
    rw [Index.natural?_repr]
    rfl

theorem not_mem_toString {i : Int} {c : Char} (hdigit : c.isDigit = false) (hminus : c ≠ '-') :
    c ∉ (toString i).toList := by
  intro hmem
  rcases Index.isDigit_or_minus_of_mem hmem with h | h
  · rw [hdigit] at h
    cases h
  · exact hminus h

/-! ### Reading what is written -/

/-- Names are words, and the parentheses of types are balanced. -/
def Legible : Expr → Prop
  | ident name => IsWord name
  | index base _ => base.Legible
  | field base name _ => base.Legible ∧ IsWord name
  | cast type inner => Balanced type.toList ∧ inner.Legible

/-- The text of an expression that something is applied to. -/
def operand (e : Expr) : List Char := (e.parenthesize e.render).toList

theorem operand_cast (type : String) (inner : Expr) :
    (cast type inner).operand = '(' :: ((cast type inner).render.toList ++ [')']) := by
  simp [operand, parenthesize, isCast]

theorem operand_of_not_cast {e : Expr} (h : e.isCast = false) : e.operand = e.render.toList := by
  simp [operand, parenthesize, h]

theorem toList_render_index (base : Expr) (i : Int) :
    (index base i).render.toList = base.operand ++ '[' :: ((toString i).toList ++ [']']) := by
  simp [render, operand]

theorem toList_render_field (base : Expr) (name : String) (viaPointer : Bool) :
    (field base name viaPointer).render.toList =
      base.operand ++ ((if viaPointer then ['-', '>'] else ['.']) ++ name.toList) := by
  cases viaPointer <;> simp [render, operand]

theorem toList_render_cast (type : String) (inner : Expr) :
    (cast type inner).render.toList =
      '(' :: (type.toList ++ ')' :: ' ' :: inner.operand) := by
  simp [render, operand]

theorem Legible.balanced {e : Expr} (h : e.Legible) :
    Balanced e.render.toList ∧ Balanced e.operand := by
  have hword {w : String} (hw : IsWord w) : Balanced w.toList :=
    balanced_of_not_mem (hw.not_mem (by decide)) (hw.not_mem (by decide))
  induction e with
  | ident name =>
    rw [operand_of_not_cast rfl]
    exact ⟨hword h, hword h⟩
  | index base i ih =>
    rw [operand_of_not_cast rfl, and_self, toList_render_index]
    have hnot {c : Char} (hc : c ∉ ['[', ']']) (hdigit : c.isDigit = false) (hminus : c ≠ '-') :
        c ∉ '[' :: ((toString i).toList ++ [']']) := by
      have := not_mem_toString (i := i) hdigit hminus
      simp_all only [List.mem_cons, List.mem_append, List.not_mem_nil, or_false, not_or,
        not_false_eq_true]
    exact (ih h).2.append (balanced_of_not_mem (hnot (by decide) rfl (by decide))
      (hnot (by decide) rfl (by decide)))
  | field base name viaPointer ih =>
    rw [operand_of_not_cast rfl, and_self, toList_render_field]
    refine (ih h.1).2.append (.append ?_ (hword h.2))
    cases viaPointer <;> decide
  | cast type inner ih =>
    have hrender : Balanced (cast type inner).render.toList := by
      rw [toList_render_cast, ← List.singleton_append (l := ' ' :: _), ← List.append_assoc,
        ← List.cons_append]
      exact (balanced_group h.1).append (.append (s := [' ']) (by decide) (ih h.2).2)
    rw [operand_cast]
    exact ⟨hrender, balanced_group hrender⟩

/-! #### Accesses -/

variable {e : Expr} {rest : List Char}

theorem accesses_index (i : Int) (rest : List Char) :
    e.accesses ('[' :: ((toString i).toList ++ ']' :: rest)) = (index e i).accesses rest := by
  have hdigits : ∀ c ∈ (toString i).toList, (c != ']') = true := by
    intro c hc
    rw [bne_iff_ne]
    rintro rfl
    exact not_mem_toString rfl (by decide) hc
  have hend : ∀ c, (']' :: rest).head? = some c → (c != ']') = false := by
    rintro _ ⟨⟩
    rfl
  have htake : ((toString i).toList ++ ']' :: rest).takeWhile (· != ']') = (toString i).toList := by
    rw [Text.takeWhile_append_of_head hend, List.takeWhile_eq_self_iff.2 hdigits]
  have hdrop : ((toString i).toList ++ ']' :: rest).dropWhile (· != ']') = ']' :: rest := by
    rw [Text.dropWhile_append_of_head hend, List.dropWhile_eq_nil_iff.2 hdigits, List.nil_append]
  rw [accesses]
  split
  · next hnil =>
    rw [hdrop] at hnil
    cases hnil
  · next c rest' hcons =>
    rw [hdrop] at hcons
    cases hcons
    rw [htake, integer?_toString, Option.bind_some]

theorem accesses_field {name : String} (hname : IsWord name) (viaPointer : Bool)
    (hrest : Follows rest) :
    e.accesses ((if viaPointer then ['-', '>'] else ['.']) ++ (name.toList ++ rest)) =
      (field e name viaPointer).accesses rest := by
  have hword := word?_append hname hrest
  cases viaPointer with
  | false =>
    show e.accesses ('.' :: (name.toList ++ rest)) = _
    rw [accesses]
    split
    · next hnone => rw [hword] at hnone; cases hnone
    · next hsome => rw [hword] at hsome; cases hsome; rfl
  | true =>
    show e.accesses ('-' :: '>' :: (name.toList ++ rest)) = _
    rw [accesses]
    split
    · next hnone => rw [hword] at hnone; cases hnone
    · next hsome => rw [hword] at hsome; cases hsome; rfl

theorem accesses_nil : e.accesses [] = some e := by rw [accesses]

/-! #### Expressions -/

theorem read_cast {type : List Char} (htype : Balanced type) (inner : List Char) :
    read ('(' :: (type ++ ')' :: ' ' :: inner)) = (read inner).map (cast (String.ofList type)) := by
  have hgroup := group?_balanced htype (' ' :: inner)
  rw [read]
  split
  · next hnone => rw [hgroup] at hnone; cases hnone
  · next hsome => rw [hgroup] at hsome; cases hsome; rfl
  · next hne hsome =>
    rw [hgroup] at hsome
    cases hsome
    exact absurd rfl (hne _)

theorem read_group {inside : List Char} (hinside : Balanced inside) (hrest : Follows rest) :
    read ('(' :: (inside ++ ')' :: rest)) = (read inside).bind fun e => e.accesses rest := by
  have hgroup := group?_balanced hinside rest
  rw [read]
  split
  · next hnone => rw [hgroup] at hnone; cases hnone
  · next hsome =>
    rw [hgroup] at hsome
    cases hsome
    rcases hrest ' ' rfl with h | h | h <;> cases h
  · next hsome => rw [hgroup] at hsome; cases hsome; rfl

theorem read_word {name : String} (hname : IsWord name) (hrest : Follows rest) :
    read (name.toList ++ rest) = (ident name).accesses rest := by
  have hword := word?_append hname hrest
  have hhead : ∀ s, name.toList ++ rest ≠ '(' :: s := by
    intro s h
    obtain ⟨c, w, hw⟩ := List.exists_cons_of_ne_nil hname.toList_ne_nil
    rw [hw, List.cons_append, List.cons.injEq] at h
    exact hname.not_mem (c := '(') (by decide) (by rw [hw, h.1]; exact List.mem_cons_self)
  unfold read
  split
  · next h => exact absurd h (hhead _)
  · rw [hword, Option.bind_some]

/-- **An operand is read up to the accesses that follow it.** -/
theorem read_operand (h : e.Legible) (hrest : Follows rest) :
    read (e.operand ++ rest) = e.accesses rest := by
  induction e generalizing rest with
  | ident name =>
    rw [operand_of_not_cast rfl]
    exact read_word h hrest
  | index base i ih =>
    rw [operand_of_not_cast rfl, toList_render_index, List.append_assoc, List.cons_append,
      List.append_assoc, ih h (by rintro _ ⟨⟩; exact .inl rfl)]
    exact accesses_index i rest
  | field base name viaPointer ih =>
    rw [operand_of_not_cast rfl, toList_render_field, List.append_assoc, List.append_assoc,
      ih h.1 (by cases viaPointer <;> rintro _ ⟨⟩ <;> simp)]
    exact accesses_field h.2 viaPointer hrest
  | cast type inner ih =>
    have hnil : Follows [] := nofun
    have hinner := ih h.2 hnil
    rw [List.append_nil, accesses_nil] at hinner
    rw [operand_cast, List.cons_append, List.append_assoc, List.singleton_append,
      read_group h.balanced.1 hrest, toList_render_cast, read_cast h.1, hinner, Option.map_some,
      Option.bind_some, String.ofList_toList]

/-- A legible expression is read back. -/
theorem read_render (h : e.Legible) : read e.render.toList = some e := by
  have hnil : Follows [] := nofun
  have hoperand {e : Expr} (h : e.Legible) : read e.operand = some e := by
    have := read_operand h hnil
    rwa [List.append_nil, accesses_nil] at this
  cases hcast : e.isCast with
  | false =>
    rw [← operand_of_not_cast hcast]
    exact hoperand h
  | true =>
    cases e with
    | cast type inner =>
      rw [toList_render_cast, read_cast h.1, hoperand h.2, Option.map_some, String.ofList_toList]
    | _ => cases hcast

/-- **Rendering is injective**: a legible expression is read back from its text, so no other one has
the same text. -/
theorem render_injective {e e' : Expr} (h : e.Legible) (h' : e'.Legible) :
    read e.render.toList = some e ∧ (e.render = e'.render ↔ e = e') := by
  refine ⟨read_render h, fun heq => ?_, congrArg render⟩
  have hread := read_render h
  rw [heq, read_render h'] at hread
  exact (Option.some.inj hread).symm

/-- An element of a pointer that is cast, and of a function pointer that is cast twice. -/
def castElement : Expr :=
  .index (.cast "int (*)(char)" (.cast "void *" (.field (.ident "reg_$0") "next" true))) (-2)

/-- Two casts of an element. -/
def elementCast : Expr :=
  .cast "int (*)(char)" (.cast "void *" (.index (.field (.ident "reg_$0") "next" true) (-2)))

/-- An element of a cast is written with the parentheses that a cast of an element lacks. -/
theorem render_castElement :
    castElement.Legible ∧ elementCast.Legible ∧
      castElement.render = "((int (*)(char)) ((void *) reg_$0->next))[-2]" ∧
      read castElement.render.toList = some castElement ∧
      castElement.render ≠ elementCast.render := by
  have hroot : IsWord "reg_$0" := ⟨by decide, Text.forall_mem (by decide)⟩
  have hfield : IsWord "next" := ⟨by decide, Text.forall_mem (by decide)⟩
  have h : castElement.Legible := ⟨by decide, by decide, hroot, hfield⟩
  have h' : elementCast.Legible := ⟨by decide, by decide, hroot, hfield⟩
  obtain ⟨hread, hinj⟩ := render_injective h h'
  exact ⟨h, h', by decide +kernel, hread, fun heq => absurd (hinj.1 heq) (by decide)⟩

end Expr

end TestSynth
