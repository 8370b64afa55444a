import TestSynth.Proofs.Renaming.Spelling

/-!
# The parts of a spelling

A spelling is leading qualifiers, a base and a trailing part of stars, blanks and qualifiers.
Either part can be told without the base between them, so it is split off as well when it stands
around another base.

* `TypeSpelling.Trailing`, `TypeSpelling.Leading` : what stands behind a base, and in front of it.
* `TypeSpelling.Trailing.splitSuffix_append` : a trailing part is split off behind any base.
* `TypeSpelling.Leading.dropQualifiers_append` : a leading part is split off in front of any base.
* `Text.trim_eq_self_iff` : a text is its own trim if no blank stands at its ends.
-/

namespace TestSynth

/-! ### Trimmed texts -/

namespace Text

/-- No blank stands at the beginning of the text. -/
def Flush (s : List Char) : Prop := ∀ c, s.head? = some c → isBlank c = false

theorem flush_nil : Flush [] := nofun

theorem flush_cons {c : Char} {s : List Char} (h : isBlank c = false) : Flush (c :: s) := by
  rintro _ ⟨⟩
  exact h

theorem Flush.append_of_ne_nil {s : List Char} (hs : Flush s) (hne : s ≠ []) (t : List Char) :
    Flush (s ++ t) := by
  obtain ⟨c, s, rfl⟩ := List.exists_cons_of_ne_nil hne
  exact flush_cons (hs c rfl)

theorem Flush.append {s t : List Char} (hs : Flush s) (ht : Flush t) : Flush (s ++ t) := by
  rcases eq_or_ne s [] with rfl | hne
  · exact ht
  · exact hs.append_of_ne_nil hne t

theorem Flush.of_append {s t : List Char} (h : Flush (s ++ t)) : Flush s := by
  cases s with
  | nil => exact flush_nil
  | cons c s => exact flush_cons (h c rfl)

theorem flush_dropWhile (s : List Char) : Flush (s.dropWhile isBlank) := by
  intro c hc
  have := List.head?_dropWhile_not isBlank s
  rw [hc] at this
  exact this

theorem dropWhile_isBlank_eq_self_iff {s : List Char} : s.dropWhile isBlank = s ↔ Flush s := by
  refine ⟨fun h => h ▸ flush_dropWhile s, fun h => ?_⟩
  cases s with
  | nil => rfl
  | cons c s => exact List.dropWhile_cons_of_neg (by simp [h c rfl])

theorem dropWhile_blanks_append {blanks s : List Char} (hblanks : ∀ c ∈ blanks, isBlank c = true)
    (hs : Flush s) : (blanks ++ s).dropWhile isBlank = s := by
  rw [List.dropWhile_append_of_pos hblanks, dropWhile_isBlank_eq_self_iff.2 hs]

theorem trimEnd_of_flush {s : List Char} (h : Flush s.reverse) : trimEnd s = s := by
  rw [trimEnd, dropWhile_isBlank_eq_self_iff.2 h, List.reverse_reverse]

/-- **A text is its own trim if it is flush at both ends.** -/
theorem trim_eq_self_iff {s : List Char} : trim s = s ↔ Flush s ∧ Flush s.reverse := by
  have hlen (s : List Char) : (s.dropWhile isBlank).length ≤ s.length :=
    (List.dropWhile_sublist isBlank).length_le
  constructor
  · intro h
    -- a blank at either end would make the trim shorter
    have hstart : trimStart s = s := by
      refine (List.dropWhile_sublist isBlank).eq_of_length_le ?_
      have := hlen (trimStart s).reverse
      have heq := congrArg List.length h
      rw [trim, trimEnd, List.length_reverse] at heq
      rw [List.length_reverse] at this
      rw [trimStart] at this heq
      omega
    rw [trim, hstart, trimEnd] at h
    have hend := congrArg List.reverse h
    rw [List.reverse_reverse] at hend
    exact ⟨dropWhile_isBlank_eq_self_iff.1 hstart, dropWhile_isBlank_eq_self_iff.1 hend⟩
  · rintro ⟨hstart, hend⟩
    rw [trim, trimStart, dropWhile_isBlank_eq_self_iff.2 hstart, trimEnd_of_flush hend]

theorem flush_trim (s : List Char) : Flush (trim s) ∧ Flush (trim s).reverse := by
  constructor
  · obtain ⟨blanks, hs, -⟩ := trimEnd_append (trimStart s)
    have := flush_dropWhile s
    rw [← trimStart, hs] at this
    exact this.of_append
  · rw [trim, trimEnd, List.reverse_reverse]
    exact flush_dropWhile _

theorem trim_trim (s : List Char) : trim (trim s) = trim s := trim_eq_self_iff.2 (flush_trim s)

end Text

namespace TypeSpelling

open Text (isBlank trimStart Flush flush_nil flush_cons)
open Renaming (isFiller beforeQualifier?_eq_some dropSuffix_of_filler dropSuffix_of_not_filler
  afterQualifier?_eq_some dropQualifiers_eq)

/-! ### Qualifiers -/

theorem isFiller_of_isBlank {c : Char} (h : isBlank c = true) : isFiller c = true := by
  rw [isFiller, h, Bool.or_true]

theorem isFiller_of_mem_qualifier {q : List Char} (hq : q ∈ qualifiers) {c : Char} (hc : c ∈ q) :
    isFiller c = false := by
  have hnot : (qualifiers.all fun q => q.all fun c => !isFiller c) = true := by decide
  simpa using List.all_eq_true.1 (List.all_eq_true.1 hnot q hq) c hc

theorem ne_nil_of_mem_qualifiers {q : List Char} (hq : q ∈ qualifiers) : q ≠ [] := by
  have hnot : ∀ q ∈ qualifiers, q ≠ [] := by decide
  exact hnot q hq

theorem reverse_append_inj {q q' s s' : List Char} (hq : q ∈ qualifiers) (hq' : q' ∈ qualifiers)
    (h : q.reverse ++ s = q'.reverse ++ s') : q = q' ∧ s = s' := by
  simp only [qualifiers, List.mem_cons, List.not_mem_nil, or_false] at hq hq'
  rcases hq with rfl | rfl | rfl <;> rcases hq' with rfl | rfl | rfl <;> simp_all

theorem append_inj_of_qualifiers {q q' s s' : List Char} (hq : q ∈ qualifiers)
    (hq' : q' ∈ qualifiers) (h : q ++ s = q' ++ s') : q = q' ∧ s = s' := by
  simp only [qualifiers, List.mem_cons, List.not_mem_nil, or_false] at hq hq'
  rcases hq with rfl | rfl | rfl <;> rcases hq' with rfl | rfl | rfl <;> simp_all

/-- A text with more in it than stars and blanks. -/
def Solid (s : List Char) : Prop := ∃ c ∈ s, isFiller c = false

theorem Solid.append_left {s : List Char} (h : Solid s) (t : List Char) : Solid (s ++ t) :=
  have ⟨c, hc, hfiller⟩ := h
  ⟨c, List.mem_append_left t hc, hfiller⟩

theorem Solid.append_right {t : List Char} (h : Solid t) (s : List Char) : Solid (s ++ t) :=
  have ⟨c, hc, hfiller⟩ := h
  ⟨c, List.mem_append_right s hc, hfiller⟩

theorem solid_reverse {s : List Char} : Solid s.reverse ↔ Solid s := by
  simp only [Solid, List.mem_reverse]

theorem mem_dropWhile_of_not {p : Char → Bool} {c : Char} {s : List Char} (hc : c ∈ s)
    (hp : p c = false) : c ∈ s.dropWhile p := by
  rw [← List.takeWhile_append_dropWhile (p := p) (l := s)] at hc
  refine (List.mem_append.1 hc).resolve_left fun hmem => ?_
  rw [List.mem_takeWhile_imp hmem] at hp
  cases hp

theorem Solid.hasBase {r : List Char} (h : Solid r) : hasBase r = true := by
  obtain ⟨c, hc, hfiller⟩ := h
  simp only [isFiller, Bool.or_eq_false_iff] at hfiller
  rw [TypeSpelling.hasBase, List.any_eq_true]
  exact ⟨c, mem_dropWhile_of_not (mem_dropWhile_of_not hc hfiller.2) hfiller.1, by simp [hfiller.2]⟩

theorem beforeQualifiers?_eq_some {r rest : List Char} :
    beforeQualifiers? r = some rest ↔ ∃ q ∈ qualifiers, r = q.reverse ++ rest ∧
      (∃ c, rest.head? = some c ∧ isFiller c = true) ∧ hasBase rest = true := by
  constructor
  · intro h
    obtain ⟨q, hq, h⟩ := List.exists_of_findSome?_eq_some h
    exact ⟨q, hq, beforeQualifier?_eq_some.1 h⟩
  · rintro ⟨q, hq, h⟩
    cases hbefore : beforeQualifiers? r with
    | none =>
      have := List.findSome?_eq_none_iff.1 hbefore q hq
      rw [beforeQualifier?_eq_some.2 h] at this
      cases this
    | some rest' =>
      obtain ⟨q', hq', h'⟩ := List.exists_of_findSome?_eq_some hbefore
      have heq := h.1.symm.trans (beforeQualifier?_eq_some.1 h').1
      rw [(reverse_append_inj hq hq' heq).2]

theorem dropSuffix_of_qualifier {q rest : List Char} (hq : q ∈ qualifiers)
    (hhead : ∃ c, rest.head? = some c ∧ isFiller c = true) (hbase : hasBase rest = true) :
    dropSuffix (q.reverse ++ rest) = dropSuffix rest := by
  have hbefore := beforeQualifiers?_eq_some.2 ⟨q, hq, rfl, hhead, hbase⟩
  obtain ⟨c, r, hr⟩ := List.exists_cons_of_ne_nil (l := q.reverse)
    (by simpa using ne_nil_of_mem_qualifiers hq)
  have hc : isFiller c = false :=
    isFiller_of_mem_qualifier hq (List.mem_reverse.1 (hr ▸ List.mem_cons_self))
  rw [hr, List.cons_append] at hbefore ⊢
  rw [dropSuffix_of_not_filler hc, hbefore]
  rfl

theorem afterQualifiers?_eq_some {s rest : List Char} :
    afterQualifiers? s = some rest ↔
      ∃ q ∈ qualifiers, ∃ t, s = q ++ ' ' :: t ∧ rest = trimStart t := by
  constructor
  · intro h
    obtain ⟨q, hq, h⟩ := List.exists_of_findSome?_eq_some h
    exact ⟨q, hq, afterQualifier?_eq_some.1 h⟩
  · rintro ⟨q, hq, t, hs, hrest⟩
    cases hafter : afterQualifiers? s with
    | none =>
      have := List.findSome?_eq_none_iff.1 hafter q hq
      rw [afterQualifier?_eq_some.2 ⟨t, hs, hrest⟩] at this
      cases this
    | some rest' =>
      obtain ⟨q', hq', h'⟩ := List.exists_of_findSome?_eq_some hafter
      obtain ⟨t', hs', rfl⟩ := afterQualifier?_eq_some.1 h'
      obtain ⟨-, heq⟩ := append_inj_of_qualifiers hq hq' (hs.symm.trans hs')
      cases heq
      rw [hrest]

theorem exists_getLast?_append {f : List Char} (h : ∃ c, f.getLast? = some c ∧ isFiller c = true)
    (s : List Char) : ∃ c, (s ++ f).getLast? = some c ∧ isFiller c = true := by
  obtain ⟨c, hc, hfiller⟩ := h
  exact ⟨c, by rw [List.getLast?_append, hc, Option.some_or], hfiller⟩

/-! ### Trailing parts -/

/-- What may stand behind a base: stars, blanks, and qualifiers behind one of these. -/
inductive Trailing : List Char → Prop
  | nil : Trailing []
  | filler {f : List Char} (hf : Trailing f) {c : Char} (hc : isFiller c = true) :
    Trailing (f ++ [c])
  | qualifier {f : List Char} (hf : Trailing f)
      (hlast : ∃ c, f.getLast? = some c ∧ isFiller c = true) {q : List Char}
      (hq : q ∈ qualifiers) : Trailing (f ++ q)

namespace Trailing

variable {f g s : List Char}

theorem of_fillers (h : ∀ c ∈ f, isFiller c = true) : Trailing f := by
  induction f using List.reverseRecOn with
  | nil => exact .nil
  | append_singleton f c ih =>
    exact .filler (ih fun d hd => h d (List.mem_append_left _ hd))
      (h c (List.mem_append_right f (List.mem_singleton_self c)))

theorem append (hf : Trailing f) (hg : Trailing g) : Trailing (f ++ g) := by
  induction hg with
  | nil => rwa [List.append_nil]
  | filler _ hc ih =>
    rw [← List.append_assoc]
    exact .filler ih hc
  | @qualifier g _ hlast q hq ih =>
    rw [← List.append_assoc]
    exact .qualifier ih (exists_getLast?_append hlast f) hq

/-- **A trailing part is dropped behind any base.** -/
theorem dropSuffix_append (hf : Trailing f) (hs : Solid s) :
    dropSuffix (s ++ f).reverse = dropSuffix s.reverse := by
  induction hf with
  | nil => rw [List.append_nil]
  | @filler f _ c hc ih =>
    rw [← List.append_assoc, List.reverse_append, List.reverse_singleton, List.singleton_append,
      dropSuffix_of_filler hc, ih]
  | @qualifier f _ hlast q hq ih =>
    rw [← List.append_assoc, List.reverse_append, dropSuffix_of_qualifier hq, ih]
    · rw [List.head?_reverse]
      exact exists_getLast?_append hlast s
    · exact (solid_reverse.2 (hs.append_left f)).hasBase

theorem splitSuffix_append (hf : Trailing f) (hs : Solid s) :
    (splitSuffix (s ++ f)).1 = (splitSuffix s).1 :=
  congrArg List.reverse (hf.dropSuffix_append hs)

theorem isFiller_head? (hf : Trailing f) {c : Char} (hc : f.head? = some c) :
    isFiller c = true := by
  induction hf with
  | nil => cases hc
  | @filler f _ d hd ih =>
    rw [List.head?_append] at hc
    cases hhead : f.head? with
    | none =>
      rw [hhead] at hc
      cases hc
      exact hd
    | some e =>
      rw [hhead] at hc
      cases hc
      exact ih hhead
  | @qualifier f _ hlast q hq ih =>
    obtain ⟨d, hd, -⟩ := hlast
    obtain ⟨f', rfl⟩ := List.getLast?_eq_some_iff.1 hd
    refine ih ?_
    rwa [List.head?_append_of_ne_nil _ (by simp)] at hc

end Trailing

/-- What is dropped of a reversed spelling is a trailing part, which is not empty if it has a
star or a blank at its end. -/
theorem trailing_dropSuffix (r : List Char) :
    ∃ f, r.reverse = (dropSuffix r).reverse ++ f ∧ Trailing f ∧
      ∀ c, r.head? = some c → isFiller c = true → f.getLast? = some c := by
  fun_induction dropSuffix r with
  | case1 =>
    refine ⟨[], rfl, .nil, fun c hc => ?_⟩
    cases hc
  | case2 c rest hc ih =>
    obtain ⟨f, hf, htrailing, -⟩ := ih
    refine ⟨f ++ [c], ?_, htrailing.filler hc, fun d hd _ => ?_⟩
    · rw [List.reverse_cons, hf, List.append_assoc]
    · cases hd
      exact List.getLast?_concat
  | case3 c rest hc rest' h _ ih =>
    obtain ⟨f, hf, htrailing, hlast⟩ := ih
    obtain ⟨q, hq, hrest, ⟨d, hd, hfiller⟩, -⟩ := beforeQualifiers?_eq_some.1 h
    refine ⟨f ++ q, ?_, htrailing.qualifier ⟨d, hlast d hd hfiller, hfiller⟩ hq,
      fun e he hnot => ?_⟩
    · rw [hrest, List.reverse_append, List.reverse_reverse, hf, List.append_assoc]
    · cases he
      exact absurd hnot hc
  | case4 c rest hc h =>
    refine ⟨[], by rw [List.append_nil], .nil, fun d hd hfiller => ?_⟩
    cases hd
    exact absurd hfiller hc

/-- **A spelling is a base and a trailing part.** -/
theorem splitSuffix_parts (s : List Char) :
    s = (splitSuffix s).1 ++ (splitSuffix s).2 ∧ Trailing (splitSuffix s).2 := by
  obtain ⟨f, hf, htrailing, -⟩ := trailing_dropSuffix s.reverse
  rw [List.reverse_reverse] at hf
  rw [snd_splitSuffix_of_append hf]
  exact ⟨hf, htrailing⟩

theorem splitSuffix_append_fillers (s : List Char) {f : List Char}
    (hf : ∀ c ∈ f, isFiller c = true) :
    splitSuffix (s ++ f) = ((splitSuffix s).1, (splitSuffix s).2 ++ f) := by
  have hbase : (splitSuffix (s ++ f)).1 = (splitSuffix s).1 := by
    show (dropSuffix (s ++ f).reverse).reverse = (dropSuffix s.reverse).reverse
    rw [List.reverse_append]
    have hf' : ∀ c ∈ f.reverse, isFiller c = true := fun c hc => hf c (List.mem_reverse.1 hc)
    generalize f.reverse = r at hf'
    induction r with
    | nil => rfl
    | cons c r ih =>
      rw [List.cons_append, dropSuffix_of_filler (hf' c List.mem_cons_self),
        ih fun d hd => hf' d (List.mem_cons_of_mem c hd)]
  refine Prod.ext hbase ?_
  have hparts := (splitSuffix_parts (s ++ f)).1
  conv_lhs at hparts => rw [(splitSuffix_parts s).1]
  rw [hbase, List.append_assoc] at hparts
  exact (List.append_cancel_left hparts).symm

theorem isFiller_getLast?_splitSuffix (s : List Char) {c : Char}
    (hc : (splitSuffix s).1.getLast? = some c) : isFiller c = false := by
  rw [splitSuffix, List.getLast?_reverse] at hc
  generalize s.reverse = r at hc
  fun_induction dropSuffix r with
  | case1 => cases hc
  | case2 c' rest _ ih => exact ih hc
  | case3 c' rest _ rest' h _ ih => exact ih hc
  | case4 c' rest hc' h =>
    cases hc
    exact Bool.eq_false_iff.2 hc'

theorem splitSuffix_splitSuffix (s : List Char) :
    (splitSuffix (splitSuffix s).1).1 = (splitSuffix s).1 := by
  show (dropSuffix (dropSuffix s.reverse).reverse.reverse).reverse = (dropSuffix s.reverse).reverse
  rw [List.reverse_reverse]
  congr 1
  generalize s.reverse = r
  fun_induction dropSuffix r with
  | case1 => rw [dropSuffix]
  | case2 c rest _ ih => exact ih
  | case3 c rest _ rest' h _ ih => exact ih
  | case4 c rest hc h =>
    rw [dropSuffix_of_not_filler (Bool.eq_false_iff.2 hc), h]
    rfl

/-! ### Leading parts -/

/-- What may stand in front of a base: qualifiers, each with a space and blanks behind it. -/
inductive Leading : List Char → Prop
  | nil : Leading []
  | qualifier {q : List Char} (hq : q ∈ qualifiers) {blanks : List Char}
      (hblanks : ∀ c ∈ blanks, isBlank c = true) {p : List Char} (hp : Leading p) :
    Leading (q ++ ' ' :: (blanks ++ p))

namespace Leading

variable {p s : List Char}

theorem flush_append (hp : Leading p) (hs : Flush s) : Flush (p ++ s) := by
  cases hp with
  | nil => exact hs
  | @qualifier q hq blanks _ p _ =>
    obtain ⟨c, r, rfl⟩ := List.exists_cons_of_ne_nil (ne_nil_of_mem_qualifiers hq)
    have hc := isFiller_of_mem_qualifier hq List.mem_cons_self
    rw [isFiller, Bool.or_eq_false_iff] at hc
    exact flush_cons hc.2

/-- **A leading part is dropped in front of any base.** -/
theorem dropQualifiers_append (hp : Leading p) (hs : Flush s) :
    dropQualifiers (p ++ s) = dropQualifiers s := by
  induction hp with
  | nil => rfl
  | @qualifier q hq blanks hblanks p hp ih =>
    have hafter : afterQualifiers? (q ++ ' ' :: (blanks ++ p) ++ s) = some (p ++ s) := by
      refine afterQualifiers?_eq_some.2 ⟨q, hq, blanks ++ (p ++ s), by simp, ?_⟩
      rw [trimStart, Text.dropWhile_blanks_append hblanks (hp.flush_append hs)]
    rw [dropQualifiers_eq, hafter]
    exact ih

theorem isFiller_getLast? (hp : Leading p) {c : Char} (hc : p.getLast? = some c) :
    isFiller c = true := by
  induction hp with
  | nil => cases hc
  | @qualifier q hq blanks hblanks p hp ih =>
    rw [List.getLast?_append_cons, ← List.cons_append, List.getLast?_append] at hc
    cases hlast : p.getLast? with
    | some d =>
      rw [hlast, Option.some_or] at hc
      cases hc
      exact ih hlast
    | none =>
      rw [hlast, Option.none_or] at hc
      rcases List.mem_cons.1 (List.mem_of_getLast? hc) with rfl | hmem
      · decide
      · exact isFiller_of_isBlank (hblanks c hmem)

/-- Behind its first qualifier a leading part may stand behind a base as well. -/
theorem exists_trailing (hp : Leading p) (hne : p ≠ []) :
    ∃ q ∈ qualifiers, ∃ f, p = q ++ f ∧ Trailing f ∧
      ∃ c, f.getLast? = some c ∧ isFiller c = true := by
  induction hp with
  | nil => exact absurd rfl hne
  | @qualifier q hq blanks hblanks p hp ih =>
    have hfillers : ∀ c ∈ ' ' :: blanks, isFiller c = true := by
      intro c hc
      rcases List.mem_cons.1 hc with rfl | hc
      · decide
      · exact isFiller_of_isBlank (hblanks c hc)
    have hlast : ∃ c, (' ' :: blanks).getLast? = some c ∧ isFiller c = true :=
      ⟨_, List.getLast?_eq_getLast_of_ne_nil (List.cons_ne_nil ' ' blanks),
        hfillers _ (List.getLast_mem _)⟩
    refine ⟨q, hq, ' ' :: blanks ++ p, rfl, ?_⟩
    rcases eq_or_ne p [] with rfl | hp'
    · rw [List.append_nil]
      exact ⟨.of_fillers hfillers, hlast⟩
    · obtain ⟨q', hq', f, rfl, hf, hflast⟩ := ih hp'
      rw [← List.append_assoc]
      exact ⟨((Trailing.of_fillers hfillers).qualifier hlast hq').append hf,
        exists_getLast?_append hflast _⟩

end Leading

theorem leading_dropQualifiers (s : List Char) : ∃ p, s = p ++ dropQualifiers s ∧ Leading p := by
  fun_induction dropQualifiers s with
  | case1 s rest h _ ih =>
    obtain ⟨p, hrest, hp⟩ := ih
    obtain ⟨q, hq, t, rfl, rfl⟩ := afterQualifiers?_eq_some.1 h
    refine ⟨q ++ ' ' :: (t.takeWhile isBlank ++ p), ?_,
      .qualifier hq (fun c => List.mem_takeWhile_imp) hp⟩
    rw [List.append_assoc, List.cons_append, List.append_assoc, ← hrest, trimStart,
      List.takeWhile_append_dropWhile]
  | case2 s h => exact ⟨[], rfl, .nil⟩

theorem flush_dropQualifiers {s : List Char} (hs : Flush s) : Flush (dropQualifiers s) := by
  fun_induction dropQualifiers s with
  | case1 s rest h _ ih =>
    obtain ⟨q, -, t, -, rfl⟩ := afterQualifiers?_eq_some.1 h
    exact ih (Text.flush_dropWhile t)
  | case2 s h => exact hs

theorem dropQualifiers_dropQualifiers {s : List Char} (hs : Flush s) :
    dropQualifiers (dropQualifiers s) = dropQualifiers s := by
  obtain ⟨p, hp, hleading⟩ := leading_dropQualifiers s
  have := hleading.dropQualifiers_append (flush_dropQualifiers hs)
  rwa [← hp, eq_comm] at this

theorem dropQualifiers_of_head? {s : List Char}
    (h : ∀ c, s.head? = some c → isFiller c = true) : dropQualifiers s = s := by
  rw [dropQualifiers_eq]
  cases hafter : afterQualifiers? s with
  | none => rfl
  | some rest =>
    obtain ⟨q, hq, t, rfl, -⟩ := afterQualifiers?_eq_some.1 hafter
    obtain ⟨c, r, rfl⟩ := List.exists_cons_of_ne_nil (ne_nil_of_mem_qualifiers hq)
    have hfiller := isFiller_of_mem_qualifier hq List.mem_cons_self
    rw [h c rfl] at hfiller
    cases hfiller

/-- **A base is a leading part and what it qualifies.** -/
theorem splitQualifiers_parts (s : List Char) :
    s = (splitQualifiers s).1 ++ (splitQualifiers s).2 ∧ Leading (splitQualifiers s).1 := by
  obtain ⟨p, hs, hp⟩ := leading_dropQualifiers s
  rw [fst_splitQualifiers_of_append hs]
  exact ⟨hs, hp⟩

/-! ### Bases that nothing can be split off -/

theorem hasBase_append {r : List Char} (h : hasBase r = true) (t : List Char) :
    hasBase (r ++ t) = true := by
  have happend {p : Char → Bool} {r : List Char} (hne : r.dropWhile p ≠ []) (t : List Char) :
      (r ++ t).dropWhile p = r.dropWhile p ++ t := by
    rw [List.dropWhile_append, if_neg (by simpa using hne)]
  obtain ⟨c, hc, hblank⟩ := List.any_eq_true.1 h
  have hstars := List.ne_nil_of_mem hc
  have hblanks : r.dropWhile isBlank ≠ [] := fun hnil => hstars (by rw [hnil]; rfl)
  rw [hasBase, happend hblanks, happend hstars]
  exact List.any_eq_true.2 ⟨c, List.mem_append_left t hc, hblank⟩

/-- A text that ends in a qualifier which can be split off. -/
def EndsQualified (s : List Char) : Prop :=
  ∃ z, ∃ w ∈ qualifiers, s = z ++ w ∧ (∃ c, z.getLast? = some c ∧ isFiller c = true) ∧
    hasBase z.reverse = true

theorem EndsQualified.append {s : List Char} (h : EndsQualified s) (p : List Char) :
    EndsQualified (p ++ s) := by
  obtain ⟨z, w, hw, rfl, hlast, hbase⟩ := h
  refine ⟨p ++ z, w, hw, (List.append_assoc p z w).symm, exists_getLast?_append hlast p, ?_⟩
  rw [List.reverse_append]
  exact hasBase_append hbase _

/-- Nothing is split off a text that ends in no star or blank unless it ends in a qualifier. -/
theorem splitSuffix_eq_self_iff {s : List Char}
    (hlast : ∀ c, s.getLast? = some c → isFiller c = false) :
    (splitSuffix s).1 = s ↔ ¬EndsQualified s := by
  have hself : (splitSuffix s).1 = s ↔ dropSuffix s.reverse = s.reverse := by
    rw [splitSuffix, List.reverse_eq_iff]
  rw [hself]
  constructor
  · rintro hself ⟨z, w, hw, rfl, ⟨c, hc, hfiller⟩, hbase⟩
    -- the qualifier stands behind a star or a blank, so something would be dropped
    have hhead : ∃ c, z.reverse.head? = some c ∧ isFiller c = true :=
      ⟨c, by rwa [List.head?_reverse], hfiller⟩
    rw [List.reverse_append, dropSuffix_of_qualifier hw hhead hbase] at hself
    have hle := Renaming.length_dropSuffix_le z.reverse
    have hlen := List.length_pos_of_ne_nil (ne_nil_of_mem_qualifiers hw)
    rw [hself, List.length_append, List.length_reverse] at hle
    omega
  · intro hends
    cases hs : s.reverse with
    | nil => rw [dropSuffix]
    | cons c r =>
      have hc := hlast c (by rw [← List.head?_reverse, hs]; rfl)
      rw [dropSuffix_of_not_filler hc]
      cases hbefore : beforeQualifiers? (c :: r) with
      | none => rfl
      | some rest =>
        obtain ⟨w, hw, hr, ⟨d, hd, hfiller⟩, hbase⟩ := beforeQualifiers?_eq_some.1 hbefore
        have hlast' : ∃ c, rest.reverse.getLast? = some c ∧ isFiller c = true :=
          ⟨d, by rwa [List.getLast?_reverse], hfiller⟩
        refine absurd ⟨rest.reverse, w, hw, ?_, hlast', ?_⟩ hends
        · rw [← List.reverse_inj, hs, hr, List.reverse_append, List.reverse_reverse]
        · rwa [List.reverse_reverse]

theorem splitSuffix_of_word {w : List Char} (hw : ∀ c ∈ w, isFiller c = false) :
    (splitSuffix w).1 = w := by
  refine (splitSuffix_eq_self_iff fun c hc => hw c (List.mem_of_getLast? hc)).2 ?_
  rintro ⟨z, q, -, rfl, ⟨c, hc, hfiller⟩, -⟩
  rw [hw c (List.mem_append_left q (List.mem_of_getLast? hc))] at hfiller
  cases hfiller

theorem dropQualifiers_of_word {w : List Char} (hw : ∀ c ∈ w, isFiller c = false) :
    dropQualifiers w = w := by
  rw [dropQualifiers_eq]
  cases hafter : afterQualifiers? w with
  | none => rfl
  | some rest =>
    obtain ⟨q, hq, t, rfl, -⟩ := afterQualifiers?_eq_some.1 hafter
    cases hw ' ' (List.mem_append_right q List.mem_cons_self)

theorem splitSuffix_qualifier_append {q f : List Char} (hq : q ∈ qualifiers) (hf : Trailing f) :
    (splitSuffix (q ++ f)).1 = q := by
  have hword : ∀ c ∈ q, isFiller c = false := fun c => isFiller_of_mem_qualifier hq
  obtain ⟨c, hc⟩ := List.exists_mem_of_ne_nil q (ne_nil_of_mem_qualifiers hq)
  rw [hf.splitSuffix_append ⟨c, hc, hword c hc⟩, splitSuffix_of_word hword]

end TypeSpelling

end TestSynth
