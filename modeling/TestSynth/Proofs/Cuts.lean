import TestSynth.Proofs.Spans

/-!
# Texts that are cut off

A text that is cut off in front of a token has the lexemes in front of that token, and it may be
continued: with a blank, or with what begins as the text went on.

* `Token.scan?_of_fits` : a token is read from its spelling, whatever fits behind it.
* `Lexeme.Cut` : a text, cut between two of its lexemes.
* `Lexeme.Cut.exists_of_readFrom` : a text can be cut between any two of them.
* `Lexeme.Cut.readFrom_front`, `Lexeme.Cut.readFrom_word`, `Lexeme.Cut.readFrom_other` : what is in
  front of the cut, by itself, with a word behind it and with another token behind it.
-/

namespace TestSynth

namespace Token

/-- What may stand in the place of `rest` without reaching into the token in front of it: nothing, a
blank, or what `rest` begins with. -/
def Fits (rest more : List Char) : Prop :=
  ∀ c, more.head? = some c → Lexeme.isGap c = true ∨ rest.head? = some c

theorem Fits.refl (rest : List Char) : Fits rest rest := fun _ hc => .inr hc

theorem Fits.of_append {s rest more : List Char} (hs : s ≠ []) : Fits (s ++ rest) (s ++ more) := by
  obtain ⟨c, s, rfl⟩ := List.exists_cons_of_ne_nil hs
  exact fun _ hc => .inr hc

variable {s rest more : List Char} {t : Token}

/-- What a run is depends on the first character behind it only. -/
theorem fst_ofRun_of_head? (run : List Char) (h : more.head? = rest.head?) :
    (ofRun run more).1 = (ofRun run rest).1 := by
  cases rest with
  | nil =>
    rw [List.head?_nil, List.head?_eq_none_iff] at h
    rw [h]
  | cons c rest =>
    obtain ⟨more, rfl⟩ := List.head?_eq_some_iff.1 h
    by_cases hc : c = '{'
    · subst hc
      simp only [ofRun]
      split
      · rfl
      · split
        · rfl
        · exact fst_ofRun_plain run _ _
    · rw [ofRun_of_not_brace (by simpa using hc), ofRun_of_not_brace (by simpa using hc)]
      exact fst_ofRun_plain run _ _

theorem isRun_plain (run rest : List Char) : (ofRun.plain run rest).1.isRun = true := by
  unfold ofRun.plain
  split
  · rfl
  · split <;> rfl

theorem ofRun_of_head? {run : List Char} (hplain : ofRun run rest = ofRun.plain run rest)
    (h : more.head? = rest.head?) : ofRun run more = ofRun.plain run more := by
  have hrun : (ofRun run more).1.isRun = true := by
    rw [fst_ofRun_of_head? run h, hplain, isRun_plain]
  rcases ofRun_cases run more with hopen | hopen | h
  · rw [hopen] at hrun
    cases hrun
  · rw [hopen] at hrun
    cases hrun
  · exact h

/-- **A token is read from its spelling**, whatever fits behind it. -/
theorem scan?_of_fits (h : scan? s = some (t, rest)) (hmore : Fits rest more) :
    scan? (t.spelling.toList ++ more) = some (t, more) := by
  rcases scan?_cases h with ⟨ht, -, hminus⟩ | ⟨c, s', rfl, hc, hrun⟩
  · refine scan?_mark ht fun htm hhead => ?_
    rcases hmore _ hhead with hgap | hrest
    · exact absurd hgap (by decide)
    · exact hminus htm hrest
  -- if what follows is blank, that is known of all tokens
  by_cases hblank : ∀ c, more.head? = some c → Lexeme.isGap c = true
  · exact scan?_spelling h hblank
  have hhead : more.head? = rest.head? := by
    obtain ⟨d, hd, hgap⟩ : ∃ d, more.head? = some d ∧ Lexeme.isGap d ≠ true := by
      simpa using hblank
    rw [hd, (hmore d hd).resolve_left hgap]
  rcases ofRun_cases ((c :: s').takeWhile isWordChar) ((c :: s').dropWhile isWordChar) with
    hopen | hopen | hplain
  · rw [hrun] at hopen
    subst hopen
    rfl
  · rw [hrun] at hopen
    subst hopen
    rfl
  · have ht :
        (ofRun.plain ((c :: s').takeWhile isWordChar) ((c :: s').dropWhile isWordChar)).1 = t :=
      congrArg Prod.fst (hplain.symm.trans hrun)
    have hrest : (c :: s').dropWhile isWordChar = rest := by
      rw [← snd_ofRun_plain ((c :: s').takeWhile isWordChar) ((c :: s').dropWhile isWordChar),
        ← hplain, hrun]
    subst hrest
    have hword (d : Char) (hd : more.head? = some d) : isWordChar d = false := by
      rw [hhead] at hd
      have hnot := List.head?_dropWhile_not isWordChar (c :: s')
      rwa [hd] at hnot
    have hruns : ∀ d ∈ (c :: s').takeWhile isWordChar, isWordChar d = true :=
      fun d hd => List.mem_takeWhile_imp hd
    obtain ⟨w, hw⟩ : ∃ w, (c :: s').takeWhile isWordChar = c :: w :=
      ⟨_, List.takeWhile_cons_of_pos hc⟩
    have hspelling : t.spelling.toList = c :: w := by
      rw [← ht, spelling_ofRun_plain, String.toList_ofList, hw]
    rw [hw] at hruns hplain ht
    rw [hspelling, List.cons_append, scan?_of_isWordChar hc, ← List.cons_append,
      Text.takeWhile_append_of_head hword, Text.dropWhile_append_of_head hword,
      List.takeWhile_eq_self_iff.2 hruns, List.dropWhile_eq_nil_iff.2 hruns, List.nil_append,
      ofRun_of_head? hplain hhead]
    exact congrArg some (Prod.ext ((fst_ofRun_plain _ _ _).trans ht) (snd_ofRun_plain _ _))

end Token

namespace Lexeme

open Token (Fits)

variable {pos : Nat} {s : List Char} {taken rest : List Lexeme}

theorem eq_nil_of_bytes {s : List Char} (h : bytes s = 0) : s = [] := by
  rwa [bytes, String.utf8ByteSize_eq_zero_iff, String.ofList_eq_empty_iff] at h

theorem append_inj_of_bytes {before before' behind behind' : List Char}
    (h : before ++ behind = before' ++ behind') (hbytes : bytes before = bytes before') :
    before = before' ∧ behind = behind' := by
  rcases List.append_eq_append_iff.1 h with ⟨p, rfl, rfl⟩ | ⟨p, rfl, rfl⟩
  · rw [bytes_append] at hbytes
    obtain rfl := eq_nil_of_bytes (show bytes p = 0 by omega)
    simp
  · rw [bytes_append] at hbytes
    obtain rfl := eq_nil_of_bytes (show bytes p = 0 by omega)
    simp

theorem position_readFrom (pos : Nat) (s : List Char) :
    position (pos + bytes s) (readFrom pos s) = pos + bytes (s.takeWhile isGap) := by
  rcases blank_or_scan? s with hblank | ⟨t, rest, hscan⟩
  · rw [readFrom_of_blank hblank, position]
    rw [List.takeWhile_eq_self_iff.2 (List.dropWhile_eq_nil_iff.1 hblank)]
  · rw [readFrom_of_scan? hscan]
    rfl

theorem eq_append_of_readFrom {l : Lexeme} {ls : List Lexeme} (h : readFrom pos s = l :: ls) :
    ∃ gap behind, s = gap ++ (l.text.toList ++ behind) ∧ ∀ c ∈ gap, isGap c = true := by
  rcases blank_or_scan? s with hblank | ⟨t, rest, hscan⟩
  · rw [readFrom_of_blank hblank] at h
    cases h
  · rw [readFrom_of_scan? hscan] at h
    obtain ⟨rfl, -⟩ := List.cons.inj h
    refine ⟨s.takeWhile isGap, rest, ?_, fun c hc => List.mem_takeWhile_imp hc⟩
    rw [← List.append_assoc]
    exact eq_append_of_scan? hscan

theorem readFrom_token {s' rest more gap : List Char} {t : Token}
    (h : Token.scan? s' = some (t, rest)) (hmore : Fits rest more)
    (hgap : ∀ c ∈ gap, isGap c = true) :
    readFrom pos (gap ++ (t.spelling.toList ++ more)) =
      ⟨String.ofList gap, t, pos + bytes gap⟩ ::
        readFrom (pos + bytes gap + bytes t.spelling.toList) more := by
  have hscan := Token.scan?_of_fits h hmore
  have hhead (c : Char) (hc : (t.spelling.toList ++ more).head? = some c) : isGap c = false := by
    obtain ⟨w, hw⟩ := List.head?_eq_some_iff.1 hc
    rw [hw] at hscan
    exact Token.isGap_of_scan? hscan
  have htake : (gap ++ (t.spelling.toList ++ more)).takeWhile isGap = gap := by
    rw [Text.takeWhile_append_of_head hhead, List.takeWhile_eq_self_iff.2 hgap]
  have hdrop :
      (gap ++ (t.spelling.toList ++ more)).dropWhile isGap = t.spelling.toList ++ more := by
    rw [Text.dropWhile_append_of_head hhead, List.dropWhile_eq_nil_iff.2 hgap, List.nil_append]
  rw [readFrom_of_scan? (hdrop ▸ hscan), htake]

/-- A text is cut between any two of its lexemes, so that what is in front of the cut is read as
before if it fits what follows. -/
theorem exists_append_of_readFrom (h : readFrom pos s = taken ++ rest) :
    ∃ before behind, s = before ++ behind ∧ readFrom (pos + bytes before) behind = rest ∧
      ∀ more, Fits behind more →
        readFrom pos (before ++ more) = taken ++ readFrom (pos + bytes before) more := by
  induction taken generalizing pos s with
  | nil => exact ⟨[], s, rfl, h, fun more _ => rfl⟩
  | cons l taken ih =>
    rcases blank_or_scan? s with hblank | ⟨t, s', hscan⟩
    · rw [readFrom_of_blank hblank] at h
      cases h
    rw [readFrom_of_scan? hscan] at h
    obtain ⟨rfl, htail⟩ := List.cons.inj h
    obtain ⟨before, behind, rfl, hrest, hmore⟩ := ih htail
    have hs := eq_append_of_scan? hscan
    have hbytes : pos + bytes (s.takeWhile isGap) + bytes t.spelling.toList + bytes before =
        pos + bytes (s.takeWhile isGap ++ t.spelling.toList ++ before) := by
      rw [bytes_append, bytes_append]
      omega
    rw [hbytes] at hrest hmore
    refine ⟨s.takeWhile isGap ++ t.spelling.toList ++ before, behind, ?_, hrest,
      fun more hfits => ?_⟩
    · rw [List.append_assoc]
      exact hs
    · -- the first lexeme meets what is left in front of the cut, or else what is behind it
      have hfits' : Fits (before ++ behind) (before ++ more) := by
        rcases eq_or_ne before [] with rfl | hne
        · exact hfits
        · exact .of_append hne
      rw [List.append_assoc, List.append_assoc,
        readFrom_token hscan hfits' fun c hc => List.mem_takeWhile_imp hc, hmore more hfits,
        List.cons_append]

/-- What is left of a text is known by the place where it begins. -/
theorem eq_of_position_eq {source : String} {rest rest' : List Lexeme} (h : rest <:+ ofText source)
    (h' : rest' <:+ ofText source)
    (hposition : position source.utf8ByteSize rest = position source.utf8ByteSize rest') :
    rest = rest' := by
  have hlt {l : Lexeme} {run rest : List Lexeme} (h : l :: (run ++ rest) <:+ ofText source) :
      l.start < position source.utf8ByteSize rest := by
    have hl : l ∈ ofText source := h.subset List.mem_cons_self
    refine Nat.lt_of_lt_of_le (start_lt_stop hl) ?_
    cases rest with
    | nil => simpa [position, bytes_toList] using stop_le hl
    | cons m rest =>
      have hpairwise := (pairwise_stop_le_start 0 source.toList).sublist h.sublist
      exact (List.pairwise_cons.1 hpairwise).1 m (List.mem_append_right run List.mem_cons_self)
  rcases List.suffix_or_suffix_of_suffix h h' with ⟨run, rfl⟩ | ⟨run, rfl⟩
  · cases run with
    | nil => rfl
    | cons l run => exact absurd hposition.symm (Nat.ne_of_lt (hlt h'))
  · cases run with
    | nil => rfl
    | cons l run => exact absurd hposition (Nat.ne_of_lt (hlt h))

/-- A text that is cut between the lexemes that are `taken` and the `rest`. -/
structure Cut (s : List Char) (taken rest : List Lexeme) where
  /-- The text up to the end of the lexemes that are taken. -/
  before : List Char
  /-- The blanks behind them. -/
  gap : List Char
  /-- The text from the next lexeme on. -/
  behind : List Char
  eq_append : s = before ++ gap ++ behind
  isGap_of_mem : ∀ c ∈ gap, isGap c = true
  head_behind : ∀ c, behind.head? = some c → isGap c = false
  readFrom_behind : readFrom (bytes before) (gap ++ behind) = rest
  readFrom_before : ∀ more, Fits (gap ++ behind) more →
    readFrom 0 (before ++ more) = taken ++ readFrom (bytes before) more

namespace Cut

/-- **A text can be cut** between any two of its lexemes. -/
theorem exists_of_readFrom (h : readFrom 0 s = taken ++ rest) : Nonempty (Cut s taken rest) := by
  obtain ⟨before, behind, rfl, hrest, hmore⟩ := exists_append_of_readFrom h
  rw [Nat.zero_add] at hrest hmore
  refine ⟨⟨before, behind.takeWhile isGap, behind.dropWhile isGap, ?_, ?_, ?_, ?_, ?_⟩⟩
  · rw [List.append_assoc, List.takeWhile_append_dropWhile]
  · exact fun c hc => List.mem_takeWhile_imp hc
  · intro c hc
    have hnot := List.head?_dropWhile_not isGap behind
    rw [hc] at hnot
    exact hnot
  · rw [List.takeWhile_append_dropWhile, hrest]
  · rw [List.takeWhile_append_dropWhile]
    exact hmore

variable (cut : Cut s taken rest)

/-- The text in front of the cut, with the blanks there. -/
def front : List Char := cut.before ++ cut.gap

theorem eq_front_append : s = cut.front ++ cut.behind := cut.eq_append

theorem rest_cases :
    rest = [] ∧ cut.behind = [] ∨ ∃ l rest' more, rest = l :: rest' ∧
      Token.scan? cut.behind = some (l.token, more) ∧ l.start = bytes cut.front ∧
        rest' = readFrom (bytes cut.front + bytes l.text.toList) more := by
  have hdrop : (cut.gap ++ cut.behind).dropWhile isGap = cut.behind := by
    rw [Text.dropWhile_append_of_head cut.head_behind, List.dropWhile_eq_nil_iff.2 cut.isGap_of_mem,
      List.nil_append]
  have htake : (cut.gap ++ cut.behind).takeWhile isGap = cut.gap := by
    rw [Text.takeWhile_append_of_head cut.head_behind,
      List.takeWhile_eq_self_iff.2 cut.isGap_of_mem]
  have hrest := cut.readFrom_behind
  rcases blank_or_scan? (cut.gap ++ cut.behind) with hblank | ⟨t, more, hscan⟩
  · rw [readFrom_of_blank hblank] at hrest
    exact .inl ⟨hrest.symm, hdrop.symm.trans hblank⟩
  · rw [readFrom_of_scan? hscan, htake, ← bytes_append] at hrest
    rw [hdrop] at hscan
    exact .inr ⟨_, _, more, hrest.symm, hscan, rfl, rfl⟩

theorem exists_scan? {l : Lexeme} (cut : Cut s taken (l :: rest)) :
    ∃ more, Token.scan? cut.behind = some (l.token, more) ∧ l.start = bytes cut.front ∧
      rest = readFrom (bytes cut.front + bytes l.text.toList) more := by
  obtain ⟨h, -⟩ | ⟨l', rest', more, hrest, hscan, hstart, hrest'⟩ := cut.rest_cases
  · cases h
  · obtain ⟨rfl, rfl⟩ := List.cons.inj hrest
    exact ⟨more, hscan, hstart, hrest'⟩

theorem start_eq {l : Lexeme} (cut : Cut s taken (l :: rest)) : l.start = bytes cut.front :=
  let ⟨_, _, hstart, _⟩ := cut.exists_scan?
  hstart

/-- The tokens behind a cut are read again from the text there. -/
theorem map_token_readFrom_behind (cut : Cut s taken rest) (pos : Nat) :
    (readFrom pos cut.behind).map token = rest.map token := by
  have hdrop : cut.behind.dropWhile isGap = cut.behind := by
    have happend := @Text.dropWhile_append_of_head _ isGap [] _ cut.head_behind
    rwa [List.nil_append] at happend
  rcases cut.rest_cases with ⟨rfl, hbehind⟩ | ⟨l, rest', more, rfl, hscan, -, hrest'⟩
  · rw [hbehind, readFrom_nil]
  · rw [← hdrop] at hscan
    rw [readFrom_of_scan? hscan, List.map_cons, List.map_cons,
      map_token_readFrom _ (bytes cut.front + bytes l.text.toList), ← hrest']

theorem position_eq : position (bytes s) rest = bytes cut.front := by
  rcases cut.rest_cases with ⟨rfl, hbehind⟩ | ⟨l, rest', more, rfl, -, hstart, -⟩
  · have hs : s = cut.front := by simpa [hbehind] using cut.eq_front_append
    exact congrArg bytes hs
  · exact hstart

/-- In front of the cut are the lexemes that are taken. -/
theorem readFrom_front : readFrom 0 cut.front = taken := by
  have hfits : Fits (cut.gap ++ cut.behind) cut.gap := fun c hc =>
    .inl (cut.isGap_of_mem c (List.mem_of_head? hc))
  have hblank : cut.gap.dropWhile isGap = [] := List.dropWhile_eq_nil_iff.2 cut.isGap_of_mem
  rw [front, cut.readFrom_before _ hfits, readFrom_of_blank hblank, List.append_nil]

/-- Another token may be written behind the cut, if it begins as the next one does. -/
theorem readFrom_other {t : Token} {behind more : List Char}
    (h : Token.scan? behind = some (t, more)) (hhead : behind.head? = cut.behind.head?) :
    readFrom 0 (cut.front ++ behind) =
      taken ++ ⟨String.ofList cut.gap, t, bytes cut.front⟩ ::
        readFrom (bytes cut.front + bytes t.spelling.toList) more := by
  have hfits : Fits (cut.gap ++ cut.behind) (cut.gap ++ behind) := by
    rcases eq_or_ne cut.gap [] with hgap | hgap
    · rw [hgap]
      exact fun c hc => .inr (hhead ▸ hc)
    · exact .of_append hgap
  have htoken := @readFrom_token (bytes cut.before) _ _ _ cut.gap _ h (.refl more) cut.isGap_of_mem
  rw [← Token.scan?_eq_some h, ← bytes_append] at htoken
  rw [front, List.append_assoc, cut.readFrom_before _ hfits, htoken]

/-- A word may be written behind the cut, whatever the next token is. -/
theorem readFrom_word :
    ∃ gap start, readFrom 0 (cut.front ++ [' ', 'x']) = taken ++ [⟨gap, .word "x", start⟩] := by
  have hgap : ∀ c ∈ cut.gap ++ [' '], isGap c = true := by
    intro c hc
    rcases List.mem_append.1 hc with hc | hc
    · exact cut.isGap_of_mem c hc
    · rw [List.mem_singleton.1 hc]
      rfl
  have hfits : Fits (cut.gap ++ cut.behind) (cut.gap ++ [' ', 'x']) := by
    intro c hc
    have hhead : (cut.gap ++ [' ']).head? = some c := by simpa [List.head?_append] using hc
    exact .inl (hgap c (List.mem_of_head? hhead))
  have hscan : Token.scan? ['x'] = some (.word "x", []) := by decide +kernel
  have hword := @readFrom_token (bytes cut.before) _ _ _ (cut.gap ++ [' ']) _ hscan (.refl []) hgap
  rw [← Token.scan?_eq_some hscan, readFrom_nil, List.append_assoc, List.singleton_append] at hword
  rw [front, List.append_assoc, cut.readFrom_before _ hfits, hword]
  exact ⟨_, _, rfl⟩

end Cut

end Lexeme

end TestSynth
