import TestSynth.Value.Lexeme
import Mathlib.Data.List.TakeWhile

/-!
# Lexemes of joined texts

A text that is put together from parts has the lexemes of its parts, one part after the other, as
long as no token reaches across a seam.

* `Token.scan?_eq_some` : a token is what the text begins with.
* `Token.scan?_append` : what follows a seam does not change the token before it.
* `Lexeme.readFrom_append` : the lexemes of a joined text are those of its parts.
* `Lexeme.sourceText_readFrom` : the source of all lexemes of a text is the text.
* `Lexeme.mem_of_mem_readFrom` : all that the tokens of a text are made of is in the text.
-/

namespace TestSynth

namespace Text

/-! ### Runs of characters -/

variable {α : Type} {p : α → Bool} {s rest : List α}

theorem takeWhile_append_of_head (h : ∀ a, rest.head? = some a → p a = false) :
    (s ++ rest).takeWhile p = s.takeWhile p := by
  induction s with
  | nil =>
    cases rest with
    | nil => rfl
    | cons a rest => simp [h a rfl]
  | cons a s ih =>
    rw [List.cons_append, List.takeWhile_cons, List.takeWhile_cons, ih]

theorem dropWhile_append_of_head (h : ∀ a, rest.head? = some a → p a = false) :
    (s ++ rest).dropWhile p = s.dropWhile p ++ rest := by
  induction s with
  | nil =>
    cases rest with
    | nil => rfl
    | cons a rest => simp [h a rfl]
  | cons a s ih =>
    rw [List.cons_append, List.dropWhile_cons, List.dropWhile_cons, ih]
    split <;> rfl

end Text

namespace Token

/-! ### One token -/

/-- `rest` begins with a delimiter that no token at the end of `s` can reach into. -/
def Seam (s rest : List Char) : Prop :=
  ∀ c, rest.head? = some c →
    c = ',' ∨ c = '}' ∨ c = '<' ∨ c = '.' ∨ (c = '>' ∧ s.getLast? ≠ some '-')

theorem Seam.nil (s : List Char) : Seam s [] := by
  intro c h; simp at h

theorem Seam.of_append {p s rest : List Char} (h : Seam (p ++ s) rest) (hs : s ≠ []) :
    Seam s rest := by
  intro c hc
  have hlast : (p ++ s).getLast? = s.getLast? := by
    rw [List.getLast?_append, List.getLast?_eq_some_getLast hs, Option.some_or]
  rw [← hlast]
  exact h c hc

theorem Seam.not_isWordChar {s rest : List Char} (h : Seam s rest) {c : Char}
    (hc : rest.head? = some c) : isWordChar c = false ∧ c ≠ '{' := by
  rcases h c hc with rfl | rfl | rfl | rfl | ⟨rfl, -⟩ <;> decide

theorem snd_ofRun_plain (run rest : List Char) : (ofRun.plain run rest).2 = rest := by
  unfold ofRun.plain
  split
  · rfl
  · split <;> rfl

theorem spelling_ofRun_plain (run rest : List Char) :
    (ofRun.plain run rest).1.spelling = String.ofList run := by
  unfold ofRun.plain
  split
  · rfl
  · split <;> rfl

theorem ofRun_of_not_brace {run rest : List Char} (h : rest.head? ≠ some '{') :
    ofRun run rest = ofRun.plain run rest := by
  unfold ofRun
  split
  · simp at h
  · rfl

theorem spelling_ofRun (run rest : List Char) :
    (ofRun run rest).1.spelling.toList ++ (ofRun run rest).2 = run ++ rest := by
  have hplain : (ofRun.plain run rest).1.spelling.toList ++ (ofRun.plain run rest).2
      = run ++ rest := by
    rw [spelling_ofRun_plain, snd_ofRun_plain, String.toList_ofList]
  unfold ofRun
  split
  · split
    · next hrun => simp [hrun, spelling]
    · split
      · next hrun => simp [hrun, spelling]
      · exact hplain
  · exact hplain

theorem ofRun_plain_append (run rest more : List Char) :
    ofRun.plain run (rest ++ more) =
      ((ofRun.plain run rest).1, (ofRun.plain run rest).2 ++ more) := by
  unfold ofRun.plain
  split
  · rfl
  · split <;> rfl

theorem ofRun_append {run rest more : List Char} (h : rest = [] → more.head? ≠ some '{') :
    ofRun run (rest ++ more) = ((ofRun run rest).1, (ofRun run rest).2 ++ more) := by
  cases rest with
  | nil =>
    rw [List.nil_append, ofRun_of_not_brace (h rfl), ofRun_of_not_brace (by simp)]
    exact ofRun_plain_append run [] more
  | cons c rest =>
    by_cases hc : c = '{'
    · subst hc
      simp only [ofRun, List.cons_append]
      split
      · rfl
      · split
        · rfl
        · exact ofRun_plain_append run ('{' :: rest) more
    · rw [ofRun_of_not_brace (by simpa using hc), ofRun_of_not_brace (by simpa using hc)]
      exact ofRun_plain_append run (c :: rest) more

theorem scan?_of_isWordChar {c : Char} {s : List Char} (h : isWordChar c = true) :
    scan? (c :: s) =
      some (ofRun ((c :: s).takeWhile isWordChar) ((c :: s).dropWhile isWordChar)) := by
  unfold scan?
  split
  all_goals first
    | (next heq => cases heq; exact absurd h (by decide))
    | skip
  next => rw [List.takeWhile_cons_of_pos h]

/-- A token of fixed spelling that is not part of a run of word characters. -/
def isMark : Token → Bool
  | elementOpen | regionOpen | register _ | conjured _ | word _ => false
  | _ => true

theorem scan?_mark {t : Token} {rest : List Char} (ht : t.isMark = true)
    (h : t = minus → rest.head? ≠ some '>') :
    scan? (t.spelling.toList ++ rest) = some (t, rest) := by
  cases t
  case minus =>
    cases rest with
    | nil => rfl
    | cons c rest =>
      have hc : c ≠ '>' := by simpa using h rfl
      simp [scan?, spelling, hc]
  all_goals first
    | rfl
    | cases ht

/-- What a text begins with that begins with a token: a mark, or a run of word characters. -/
theorem scan?_cases {s rest : List Char} {t : Token} (h : scan? s = some (t, rest)) :
    (t.isMark = true ∧ s = t.spelling.toList ++ rest ∧ (t = minus → rest.head? ≠ some '>')) ∨
    (∃ c s', s = c :: s' ∧ isWordChar c = true ∧
      ofRun (s.takeWhile isWordChar) (s.dropWhile isWordChar) = (t, rest)) := by
  unfold scan? at h
  split at h
  case h_12 hdash =>
    -- a minus sign: the case of an arrow came before
    cases h
    refine .inl ⟨rfl, rfl, fun _ hhead => ?_⟩
    obtain ⟨s', hs'⟩ := List.head?_eq_some_iff.1 hhead
    exact hdash s' hs'
  case h_13 =>
    -- no mark, so the token begins a run if there is one
    cases s with
    | nil => simp at h
    | cons c s =>
      by_cases hc : isWordChar c = true
      · rw [List.takeWhile_cons_of_pos hc] at h
        exact .inr ⟨c, s, rfl, hc, by rw [List.takeWhile_cons_of_pos hc]; exact Option.some.inj h⟩
      · rw [List.takeWhile_cons_of_neg hc] at h
        cases h
  all_goals
    cases h
    exact .inl ⟨rfl, rfl, by simp⟩

/-- A token is what the text begins with. -/
theorem scan?_eq_some {s rest : List Char} {t : Token} (h : scan? s = some (t, rest)) :
    s = t.spelling.toList ++ rest := by
  rcases scan?_cases h with ⟨-, hs, -⟩ | ⟨c, s', -, -, hrun⟩
  · exact hs
  · have := spelling_ofRun (s.takeWhile isWordChar) (s.dropWhile isWordChar)
    rw [hrun, List.takeWhile_append_dropWhile] at this
    exact this.symm

theorem spelling_ne_nil {s rest : List Char} {t : Token} (h : scan? s = some (t, rest)) :
    t.spelling.toList ≠ [] := by
  intro h0
  have := length_scan?_lt h
  rw [scan?_eq_some h, h0] at this
  simp at this

/-- What follows a seam does not change the token before it. -/
theorem scan?_append {s rest more : List Char} {t : Token} (h : scan? s = some (t, rest))
    (hseam : Seam s more) : scan? (s ++ more) = some (t, rest ++ more) := by
  rcases scan?_cases h with ⟨ht, hs, hminus⟩ | ⟨c, s', rfl, hc, hrun⟩
  · rw [hs, List.append_assoc]
    refine scan?_mark ht fun htm => ?_
    cases rest with
    | nil =>
      -- the sign is all of the text, and the seam does not make it an arrow
      intro hhead
      subst htm
      rcases hseam _ hhead with h | h | h | h | ⟨-, hlast⟩
      · exact absurd h (by decide)
      · exact absurd h (by decide)
      · exact absurd h (by decide)
      · exact absurd h (by decide)
      · exact hlast (by rw [hs]; rfl)
    | cons c rest => exact hminus htm
  · rw [List.cons_append, scan?_of_isWordChar hc, ← List.cons_append]
    have hword (d : Char) (hd : more.head? = some d) : isWordChar d = false :=
      (hseam.not_isWordChar hd).1
    rw [Text.takeWhile_append_of_head hword, Text.dropWhile_append_of_head hword,
      ofRun_append fun _ hhead => (hseam.not_isWordChar hhead).2 rfl, hrun]

/-- A token that is a run of word characters. -/
def isRun : Token → Bool
  | register _ | conjured _ | word _ => true
  | _ => false

theorem isWordChar_of_scan? {s rest : List Char} {t : Token} (h : scan? s = some (t, rest))
    (ht : t.isRun = true) {c : Char} (hc : c ∈ t.spelling.toList) : isWordChar c = true := by
  rcases scan?_cases h with ⟨hmark, -, -⟩ | ⟨-, -, -, -, hrun⟩
  · cases t <;> simp_all [isRun, isMark]
  · -- the markers with a brace are no runs
    have hplain : t = (ofRun.plain (s.takeWhile isWordChar) (s.dropWhile isWordChar)).1 := by
      unfold ofRun at hrun
      split at hrun
      · split at hrun
        · cases hrun; cases ht
        · split at hrun
          · cases hrun; cases ht
          · rw [hrun]
      · rw [hrun]
    rw [hplain, spelling_ofRun_plain, String.toList_ofList] at hc
    exact List.mem_takeWhile_imp hc

theorem eq_minus_of_getLast? {s rest : List Char} {t : Token} (h : scan? s = some (t, rest))
    (hlast : t.spelling.toList.getLast? = some '-') : t = minus := by
  cases ht : t.isRun with
  | true =>
    have := isWordChar_of_scan? h ht (List.mem_of_getLast? hlast)
    exact absurd this (by decide)
  | false => cases t <;> first | rfl | exact absurd hlast (by decide) | cases ht

/-- There is a token wherever a text goes on without a blank. -/
theorem scan?_ne_none {c : Char} {s : List Char} (hc : Lexeme.isGap c = false) :
    scan? (c :: s) ≠ none := by
  intro h
  unfold scan? at h
  split at h
  case h_13 =>
    by_cases hw : isWordChar c = true
    · rw [List.takeWhile_cons_of_pos hw] at h
      cases h
    · -- all but blanks are word characters or marks
      simp_all [isWordChar, Lexeme.isGap]
  all_goals cases h

end Token

namespace Lexeme

/-! ### All lexemes of a text -/

/-- The length of a text in bytes. -/
def bytes (s : List Char) : Nat := (String.ofList s).utf8ByteSize

theorem bytes_append (s rest : List Char) : bytes (s ++ rest) = bytes s + bytes rest := by
  rw [bytes, String.ofList_append, String.utf8ByteSize_append, bytes, bytes]

theorem bytes_toList (s : String) : bytes s.toList = s.utf8ByteSize := by
  rw [bytes, String.ofList_toList]

/-- The text has no blanks at its ends that would belong to no token. -/
def Tight (s : List Char) : Prop :=
  (∀ c, s.head? = some c → isGap c = false) ∧ ∀ c, s.getLast? = some c → isGap c = false

theorem readFrom_of_scan? {pos : Nat} {s rest : List Char} {t : Token}
    (h : Token.scan? (s.dropWhile isGap) = some (t, rest)) :
    readFrom pos s =
      ⟨String.ofList (s.takeWhile isGap), t, pos + bytes (s.takeWhile isGap)⟩ ::
        readFrom (pos + bytes (s.takeWhile isGap) + bytes t.spelling.toList) rest := by
  rw [readFrom]
  split
  · next hnone => rw [h] at hnone; cases hnone
  · next t' rest' hsome =>
    rw [h] at hsome
    cases hsome
    rw [bytes_toList]
    rfl

theorem readFrom_of_blank {pos : Nat} {s : List Char} (h : s.dropWhile isGap = []) :
    readFrom pos s = [] := by
  rw [readFrom]
  split
  · rfl
  · next hsome => rw [h] at hsome; cases hsome

theorem readFrom_nil (pos : Nat) : readFrom pos [] = [] := readFrom_of_blank rfl

theorem blank_or_scan? (s : List Char) :
    s.dropWhile isGap = [] ∨ ∃ t rest, Token.scan? (s.dropWhile isGap) = some (t, rest) := by
  cases hs : s.dropWhile isGap with
  | nil => exact .inl rfl
  | cons c s' =>
    have hc : isGap c = false := by
      have := List.head?_dropWhile_not isGap s
      rw [hs] at this
      simpa using this
    obtain ⟨⟨t, rest⟩, h⟩ := Option.ne_none_iff_exists'.1 (Token.scan?_ne_none (s := s') hc)
    exact .inr ⟨t, rest, h⟩

/-- Reading goes token by token, up to blanks at the end. -/
theorem readFrom_induction {motive : Nat → List Char → Prop}
    (blank : ∀ pos s, s.dropWhile isGap = [] → motive pos s)
    (token : ∀ pos s t rest, Token.scan? (s.dropWhile isGap) = some (t, rest) →
      motive (pos + bytes (s.takeWhile isGap) + bytes t.spelling.toList) rest → motive pos s)
    (pos : Nat) (s : List Char) : motive pos s := by
  induction hn : s.length using Nat.strongRecOn generalizing pos s with
  | ind n ih =>
    rcases blank_or_scan? s with h | ⟨t, rest, h⟩
    · exact blank pos s h
    · refine token pos s t rest h (ih rest.length ?_ _ rest rfl)
      have hlt := Token.length_scan?_lt h
      have hle := (List.dropWhile_sublist isGap (l := s)).length_le
      omega

theorem eq_append_of_scan? {s rest : List Char} {t : Token}
    (h : Token.scan? (s.dropWhile isGap) = some (t, rest)) :
    s = (s.takeWhile isGap ++ t.spelling.toList) ++ rest := by
  rw [List.append_assoc, ← Token.scan?_eq_some h, List.takeWhile_append_dropWhile]

theorem getLast?_of_scan? {s rest : List Char} {t : Token}
    (h : Token.scan? (s.dropWhile isGap) = some (t, rest)) (hrest : rest ≠ []) :
    rest.getLast? = s.getLast? := by
  rw [congrArg List.getLast? (eq_append_of_scan? h), List.getLast?_append,
    List.getLast?_eq_some_getLast hrest, Option.some_or]

theorem eq_nil_of_blank {s : List Char} (h : s.dropWhile isGap = [])
    (hlast : ∀ c, s.getLast? = some c → isGap c = false) : s = [] := by
  by_contra hne
  have hgap := List.dropWhile_eq_nil_iff.1 h _ (List.getLast_mem hne)
  rw [hlast _ (List.getLast?_eq_some_getLast hne)] at hgap
  cases hgap

/-- The lexemes of a joined text are those of its parts. -/
theorem readFrom_append {pos : Nat} {s more : List Char}
    (hlast : ∀ c, s.getLast? = some c → isGap c = false) (hseam : Token.Seam s more) :
    readFrom pos (s ++ more) = readFrom pos s ++ readFrom (pos + bytes s) more := by
  induction pos, s using readFrom_induction with
  | blank pos s h =>
    rw [eq_nil_of_blank h hlast, readFrom_nil, List.nil_append, List.nil_append]
    rfl
  | token pos s t rest h ih =>
    have hs := eq_append_of_scan? h
    -- the first gap ends before the seam, since a token follows it
    have hne : s.dropWhile isGap ≠ [] := fun h0 => by rw [h0] at h; cases h
    have hgap : ¬(s.takeWhile isGap).length = s.length := fun hlen => by
      have := congrArg List.length (List.takeWhile_append_dropWhile (p := isGap) (l := s))
      rw [List.length_append, hlen] at this
      exact hne (List.eq_nil_of_length_eq_zero (by omega))
    have htake : (s ++ more).takeWhile isGap = s.takeWhile isGap := by
      rw [List.takeWhile_append, if_neg hgap]
    have hdrop : (s ++ more).dropWhile isGap = s.dropWhile isGap ++ more := by
      rw [List.dropWhile_append, if_neg (by simpa using hne)]
    -- so the first token is the same, whatever follows the seam
    have hseam' : Token.Seam (s.dropWhile isGap) more :=
      Token.Seam.of_append (p := s.takeWhile isGap)
        (by rwa [List.takeWhile_append_dropWhile]) hne
    have hscan : Token.scan? ((s ++ more).dropWhile isGap) = some (t, rest ++ more) := by
      rw [hdrop]; exact Token.scan?_append h hseam'
    rw [readFrom_of_scan? h, readFrom_of_scan? hscan, htake, List.cons_append]
    congr 1
    have hbytes : pos + bytes s =
        pos + bytes (s.takeWhile isGap) + bytes t.spelling.toList + bytes rest := by
      rw [congrArg bytes hs, bytes_append, bytes_append]
      omega
    rw [hbytes]
    by_cases hrest : rest = []
    · subst hrest
      rw [List.nil_append, readFrom_nil, List.nil_append]
      rfl
    · refine ih (fun c hc => hlast c ?_) ?_
      · rw [← getLast?_of_scan? h hrest]; exact hc
      · exact Token.Seam.of_append (by rw [← hs]; exact hseam) hrest

theorem join_readFrom {pos : Nat} {s : List Char}
    (hlast : ∀ c, s.getLast? = some c → isGap c = false) :
    String.join ((readFrom pos s).map fun l => l.gap ++ l.text) = String.ofList s := by
  induction pos, s using readFrom_induction with
  | blank pos s h =>
    rw [readFrom_of_blank h, eq_nil_of_blank h hlast]
    rfl
  | token pos s t rest h ih =>
    have hrest : ∀ c, rest.getLast? = some c → isGap c = false := by
      intro c hc
      refine hlast c ?_
      rw [← getLast?_of_scan? h (fun h0 => by rw [h0] at hc; cases hc), hc]
    rw [readFrom_of_scan? h, List.map_cons, String.join_cons, ih hrest]
    rw [congrArg String.ofList (eq_append_of_scan? h), String.ofList_append, String.ofList_append,
      text, String.ofList_toList]

/-- The source of all lexemes of a text is the text. -/
theorem sourceText_readFrom {pos : Nat} {s : List Char} (h : Tight s) :
    sourceText (readFrom pos s) = String.ofList s := by
  have hjoin : String.join ((readFrom pos s).map fun l => l.gap ++ l.text) = String.ofList s :=
    join_readFrom h.2
  rw [← hjoin]
  rcases blank_or_scan? s with hblank | ⟨t, rest, hscan⟩
  · rw [readFrom_of_blank hblank]
    rfl
  · have hgap : s.takeWhile isGap = [] := by
      cases s with
      | nil => rfl
      | cons c s => rw [List.takeWhile_cons_of_neg (by simp [h.1 c rfl])]
    rw [readFrom_of_scan? hscan, sourceText, List.map_cons, String.join_cons, hgap]
    simp

theorem getLast?_of_dash {pos : Nat} {s : List Char} (h : s.getLast? = some '-') :
    ((readFrom pos s).map token).getLast? = some .minus := by
  induction pos, s using readFrom_induction with
  | blank pos s hblank =>
    have := List.dropWhile_eq_nil_iff.1 hblank '-' (List.mem_of_getLast? h)
    exact absurd this (by decide)
  | token pos s t rest hscan ih =>
    rw [readFrom_of_scan? hscan, List.map_cons]
    by_cases hrest : rest = []
    · subst hrest
      have hs := congrArg List.getLast? (eq_append_of_scan? hscan)
      rw [List.append_nil, List.getLast?_append, h] at hs
      have hne := Token.spelling_ne_nil hscan
      -- the last token ends in the dash, so it is the sign
      rw [List.getLast?_eq_some_getLast hne, Option.some_or,
        ← List.getLast?_eq_some_getLast hne] at hs
      rw [readFrom_nil, Token.eq_minus_of_getLast? hscan hs.symm]
      rfl
    · rw [List.getLast?_cons, ih (by rw [getLast?_of_scan? hscan hrest, h])]
      rfl

theorem map_token_readFrom (pos pos' : Nat) (s : List Char) :
    (readFrom pos s).map token = (readFrom pos' s).map token := by
  induction pos, s using readFrom_induction generalizing pos' with
  | blank pos s h => rw [readFrom_of_blank h, readFrom_of_blank h]
  | token pos s t rest h ih =>
    rw [readFrom_of_scan? h, readFrom_of_scan? h, List.map_cons, List.map_cons, ih]

/-- A lexeme starts at a place of the text where its token is read. -/
theorem exists_scan?_of_mem {pos : Nat} {s : List Char} {l : Lexeme} (hl : l ∈ readFrom pos s) :
    ∃ before s' rest, s = before ++ s' ∧ l.start = pos + bytes before ∧
      Token.scan? s' = some (l.token, rest) := by
  induction pos, s using readFrom_induction with
  | blank pos s h =>
    rw [readFrom_of_blank h] at hl
    cases hl
  | token pos s t rest h ih =>
    rw [readFrom_of_scan? h, List.mem_cons] at hl
    rcases hl with rfl | hl
    · exact ⟨_, _, rest, List.takeWhile_append_dropWhile.symm, rfl, h⟩
    · obtain ⟨before, s', rest', rfl, hstart, hscan⟩ := ih hl
      refine ⟨s.takeWhile isGap ++ t.spelling.toList ++ before, s', rest', ?_, ?_, hscan⟩
      · rw [List.append_assoc]
        exact eq_append_of_scan? h
      · rw [hstart, bytes_append, bytes_append]
        omega

/-- All that the tokens of a text are made of is in the text. -/
theorem mem_of_mem_readFrom {pos : Nat} {s : List Char} {l : Lexeme} (hl : l ∈ readFrom pos s)
    {c : Char} (hc : c ∈ l.token.spelling.toList) : c ∈ s := by
  obtain ⟨before, s', rest, rfl, -, h⟩ := exists_scan?_of_mem hl
  rw [Token.scan?_eq_some h]
  exact List.mem_append_right _ (List.mem_append_left _ hc)

end Lexeme

end TestSynth
