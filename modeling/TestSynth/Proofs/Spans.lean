import TestSynth.Proofs.Lexing

/-!
# Spans of tokens

Lexing loses nothing but blanks, and it is stable: a token is read again from its own text, whether
nothing follows it or a blank.

* `Token.scan?_spelling` : a token is read from its spelling, up to the blank that follows.
* `Lexeme.within_of_mem` : the span of a token lies in the text and has the token's text in it.
* `Lexeme.gap_or_covered` : a character that is in no span is a blank.
* `Lexeme.map_token_intercalate` : tokens that are written with blanks between them are read again.
* `Lexeme.ofText_spans` : all of this for the lexemes of a text.
-/

namespace TestSynth

namespace Token

/-! ### One token by itself -/

theorem ofRun_cases (run rest : List Char) :
    (ofRun run rest).1 = elementOpen ∨ (ofRun run rest).1 = regionOpen ∨
      ofRun run rest = ofRun.plain run rest := by
  unfold ofRun
  split
  · split
    · exact .inl rfl
    · split
      · exact .inr (.inl rfl)
      · exact .inr (.inr rfl)
  · exact .inr (.inr rfl)

theorem fst_ofRun_plain (run rest rest' : List Char) :
    (ofRun.plain run rest).1 = (ofRun.plain run rest').1 := by
  unfold ofRun.plain
  split
  · rfl
  · split <;> rfl

theorem isWordChar_of_isGap {c : Char} (h : Lexeme.isGap c = true) :
    isWordChar c = false ∧ c ≠ '{' ∧ c ≠ '>' := by
  simp only [Lexeme.isGap, Bool.or_eq_true, beq_iff_eq] at h
  rcases h with ((rfl | rfl) | rfl) | rfl <;> decide

theorem isGap_of_scan? {c : Char} {s rest : List Char} {t : Token}
    (h : scan? (c :: s) = some (t, rest)) : Lexeme.isGap c = false := by
  by_contra hgap
  simp only [Lexeme.isGap, Bool.not_eq_false, Bool.or_eq_true, beq_iff_eq] at hgap
  rcases hgap with ((rfl | rfl) | rfl) | rfl <;> simp [scan?, isWordChar] at h

/-- A run of word characters with a blank behind it is one token. -/
theorem scan?_run {run more : List Char} (hne : run ≠ []) (hword : ∀ c ∈ run, isWordChar c = true)
    (hmore : ∀ c, more.head? = some c → Lexeme.isGap c = true) :
    scan? (run ++ more) = some ((ofRun.plain run []).1, more) := by
  obtain ⟨c, w, rfl⟩ := List.exists_cons_of_ne_nil hne
  have hblank (d : Char) (hd : more.head? = some d) : isWordChar d = false :=
    (isWordChar_of_isGap (hmore d hd)).1
  rw [List.cons_append, scan?_of_isWordChar (hword c List.mem_cons_self), ← List.cons_append,
    Text.takeWhile_append_of_head hblank, Text.dropWhile_append_of_head hblank,
    List.takeWhile_eq_self_iff.2 hword, List.dropWhile_eq_nil_iff.2 hword, List.nil_append,
    ofRun_of_not_brace fun hhead => (isWordChar_of_isGap (hmore _ hhead)).2.1 rfl]
  exact congrArg some (Prod.ext (fst_ofRun_plain _ _ _) (snd_ofRun_plain _ _))

/-- **A token is read from its spelling**, up to the blank that follows. -/
theorem scan?_spelling {s rest more : List Char} {t : Token} (h : scan? s = some (t, rest))
    (hmore : ∀ c, more.head? = some c → Lexeme.isGap c = true) :
    scan? (t.spelling.toList ++ more) = some (t, more) := by
  rcases scan?_cases h with ⟨ht, -, -⟩ | ⟨c, s', rfl, hc, hrun⟩
  · exact scan?_mark ht fun _ hhead => (isWordChar_of_isGap (hmore _ hhead)).2.2 rfl
  rcases ofRun_cases ((c :: s').takeWhile isWordChar) ((c :: s').dropWhile isWordChar) with
    hopen | hopen | hplain
  · rw [hrun] at hopen
    subst hopen
    rfl
  · rw [hrun] at hopen
    subst hopen
    rfl
  · rw [hplain] at hrun
    have ht : t = (ofRun.plain ((c :: s').takeWhile isWordChar) []).1 := by
      rw [fst_ofRun_plain _ _ ((c :: s').dropWhile isWordChar), hrun]
    rw [ht, spelling_ofRun_plain, String.toList_ofList]
    refine scan?_run ?_ (fun d hd => List.mem_takeWhile_imp hd) hmore
    simp [List.takeWhile_cons_of_pos hc]

end Token

namespace Lexeme

variable {pos : Nat} {s : List Char} {l : Lexeme}

/-! ### Spans -/

theorem start_lt_stop (hl : l ∈ readFrom pos s) : l.start < l.stop := by
  obtain ⟨-, s', rest, -, -, h⟩ := exists_scan?_of_mem hl
  have hne := Token.spelling_ne_nil h
  have hsize : l.text.utf8ByteSize ≠ 0 := by
    intro h0
    rw [String.utf8ByteSize_eq_zero_iff] at h0
    exact hne (by rw [← text, h0]; rfl)
  rw [stop]
  omega

/-- **The span of a token lies in the text**, and the token's text is what stands there. -/
theorem within_of_mem (hl : l ∈ readFrom pos s) :
    ∃ before behind, s = before ++ (l.text.toList ++ behind) ∧ l.start = pos + bytes before := by
  obtain ⟨before, s', rest, rfl, hstart, h⟩ := exists_scan?_of_mem hl
  exact ⟨before, rest, by rw [Token.scan?_eq_some h]; rfl, hstart⟩

theorem stop_le (hl : l ∈ readFrom pos s) : l.stop ≤ pos + bytes s := by
  obtain ⟨before, behind, hs, hstart⟩ := within_of_mem hl
  rw [stop, hstart, hs, bytes_append, bytes_append, bytes_toList]
  omega

/-- The spans are apart, in the order of the lexemes. -/
theorem pairwise_stop_le_start (pos : Nat) (s : List Char) :
    (readFrom pos s).Pairwise fun l m => l.stop ≤ m.start := by
  induction pos, s using readFrom_induction with
  | blank pos s h =>
    rw [readFrom_of_blank h]
    exact .nil
  | token pos s t rest h ih =>
    rw [readFrom_of_scan? h]
    refine .cons (fun m hm => ?_) ih
    obtain ⟨before, -, -, hstart⟩ := within_of_mem hm
    show pos + _ + t.spelling.utf8ByteSize ≤ _
    rw [hstart, ← bytes_toList]
    omega

theorem append_eq_append_cons {a b before behind : List Char} {c : Char}
    (h : a ++ b = before ++ c :: behind) :
    (∃ behind', a = before ++ c :: behind') ∨
      ∃ before', before = a ++ before' ∧ b = before' ++ c :: behind := by
  rcases List.append_eq_append_iff.1 h with ⟨p, hp, hb⟩ | ⟨q, hq, hc⟩
  · exact .inr ⟨p, hp, hb⟩
  · cases q with
    | nil => exact .inr ⟨[], by simpa using hq.symm, by simpa using hc.symm⟩
    | cons d q =>
      obtain ⟨rfl, -⟩ := List.cons.inj hc
      exact .inl ⟨q, hq⟩

/-- **A character that is in no span is a blank.** -/
theorem gap_or_covered (pos : Nat) {before behind : List Char} {c : Char}
    (hs : s = before ++ c :: behind) :
    isGap c = true ∨ ∃ l ∈ readFrom pos s,
      l.start ≤ pos + bytes before ∧ pos + bytes (before ++ [c]) ≤ l.stop := by
  induction pos, s using readFrom_induction generalizing before with
  | blank pos s h => exact .inl (List.dropWhile_eq_nil_iff.1 h c (by simp [hs]))
  | token pos s t rest h ih =>
    rw [readFrom_of_scan? h]
    rcases append_eq_append_cons ((eq_append_of_scan? h).symm.trans hs) with
      ⟨q, hq⟩ | ⟨before', rfl, hrest⟩
    · rcases append_eq_append_cons hq with ⟨q', hgap⟩ | ⟨before', rfl, htext⟩
      · have hmem : c ∈ s.takeWhile isGap := by simp [hgap]
        exact .inl (List.mem_takeWhile_imp hmem)
      · -- the character is in the token
        have hsplit : bytes t.spelling.toList = bytes (before' ++ [c]) + bytes q := by
          rw [htext, ← bytes_append, List.append_assoc, List.singleton_append]
        refine .inr ⟨_, List.mem_cons_self, ?_, ?_⟩
        · show pos + bytes _ ≤ _
          rw [bytes_append]
          omega
        · show _ ≤ pos + bytes _ + t.spelling.utf8ByteSize
          rw [← bytes_toList, List.append_assoc, bytes_append]
          omega
    · -- the character is behind the token
      rcases ih hrest with hgap | ⟨l, hl, hstart, hstop⟩
      · exact .inl hgap
      · refine .inr ⟨l, List.mem_cons_of_mem _ hl, ?_, ?_⟩
        · rw [bytes_append, bytes_append]
          omega
        · rw [List.append_assoc, bytes_append, bytes_append]
          omega

/-! ### Reading again -/

theorem map_token_readFrom_cons {c : Char} (hc : isGap c = true) (pos : Nat) (s : List Char) :
    (readFrom pos (c :: s)).map token = (readFrom pos s).map token := by
  have hdrop : (c :: s).dropWhile isGap = s.dropWhile isGap := List.dropWhile_cons_of_pos hc
  rcases blank_or_scan? s with h | ⟨t, rest, h⟩
  · rw [readFrom_of_blank h, readFrom_of_blank (hdrop.trans h)]
  · rw [readFrom_of_scan? h, readFrom_of_scan? (hdrop ▸ h), List.map_cons, List.map_cons,
      map_token_readFrom]

theorem readFrom_spelling (pos : Nat) {s' rest more : List Char} {t : Token}
    (h : Token.scan? s' = some (t, rest)) (hmore : ∀ c, more.head? = some c → isGap c = true) :
    readFrom pos (t.spelling.toList ++ more) =
      ⟨"", t, pos⟩ :: readFrom (pos + bytes t.spelling.toList) more := by
  have hscan := Token.scan?_spelling h hmore
  obtain ⟨c, w, hw⟩ := List.exists_cons_of_ne_nil (Token.spelling_ne_nil h)
  have hc : ¬isGap c = true := by
    rw [hw, List.cons_append] at hscan
    simp [Token.isGap_of_scan? hscan]
  have htake : (t.spelling.toList ++ more).takeWhile isGap = [] := by
    rw [hw, List.cons_append, List.takeWhile_cons_of_neg hc]
  have hdrop : (t.spelling.toList ++ more).dropWhile isGap = t.spelling.toList ++ more := by
    rw [hw, List.cons_append, List.dropWhile_cons_of_neg hc]
  rw [readFrom_of_scan? (hdrop ▸ hscan), htake]
  rfl

theorem readFrom_text (pos : Nat) {s' rest : List Char}
    (h : Token.scan? s' = some (l.token, rest)) :
    readFrom pos l.text.toList = [⟨"", l.token, pos⟩] := by
  have hnil : ∀ c, ([] : List Char).head? = some c → isGap c = true := nofun
  have hread := readFrom_spelling pos h hnil
  rwa [List.append_nil, readFrom_nil] at hread

/-- **Tokens that are written with blanks between them are read again.** -/
theorem map_token_intercalate {ls : List Lexeme}
    (h : ∀ l ∈ ls, ∃ s rest, Token.scan? s = some (l.token, rest)) (pos : Nat) :
    (readFrom pos (String.intercalate " " (ls.map text)).toList).map token = ls.map token := by
  induction ls generalizing pos with
  | nil => simp [readFrom_nil]
  | cons l ls ih =>
    obtain ⟨s, rest, hl⟩ := h l List.mem_cons_self
    cases ls with
    | nil =>
      simp [readFrom_text pos hl]
    | cons l' ls =>
      have htail := ih (fun m hm => h m (List.mem_cons_of_mem l hm))
      rw [List.map_cons, List.map_cons, String.intercalate_cons_cons, ← List.map_cons (f := text),
        String.toList_append, String.toList_append, List.append_assoc, text,
        readFrom_spelling pos hl (by rintro _ ⟨⟩; rfl), List.map_cons]
      exact congrArg (l.token :: ·) ((map_token_readFrom_cons rfl _ _).trans (htail _))

/-- **Lexing loses nothing and is stable.**  The spans of the tokens are not empty and stand apart,
in order, in the text, each around the text of its token, and all that is in no span is blank.  A
token is read again from its text alone, and all tokens from their texts with a blank between any
two. -/
theorem ofText_spans (source : String) :
    (∀ l ∈ ofText source, l.start < l.stop ∧ l.stop ≤ source.utf8ByteSize ∧
      ∃ before behind, source.toList = before ++ (l.text.toList ++ behind) ∧
        l.start = bytes before) ∧
    (ofText source).Pairwise (fun l m => l.stop ≤ m.start) ∧
    (∀ before c behind, source.toList = before ++ c :: behind →
      isGap c = true ∨ ∃ l ∈ ofText source,
        l.start ≤ bytes before ∧ bytes (before ++ [c]) ≤ l.stop) ∧
    (∀ l ∈ ofText source, ofText l.text = [⟨"", l.token, 0⟩]) ∧
    (ofText (String.intercalate " " ((ofText source).map text))).map token =
      (ofText source).map token := by
  refine ⟨fun l hl => ⟨start_lt_stop hl, ?_, ?_⟩, pairwise_stop_le_start 0 _, ?_, ?_, ?_⟩
  · simpa [bytes_toList] using stop_le hl
  · simpa using within_of_mem hl
  · intro before c behind hs
    simpa [ofText] using gap_or_covered 0 hs
  · intro l hl
    obtain ⟨-, s, rest, -, -, h⟩ := exists_scan?_of_mem hl
    exact readFrom_text 0 h
  · refine map_token_intercalate (fun l hl => ?_) 0
    obtain ⟨-, s, rest, -, -, h⟩ := exists_scan?_of_mem hl
    exact ⟨s, rest, h⟩

end Lexeme

end TestSynth
