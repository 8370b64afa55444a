import TestSynth.Proofs.IndexText
import TestSynth.Proofs.Lexing
import TestSynth.Proofs.ValueTree

/-!
# Reading trees back

The text of a tree is read as the value of the tree (`Value.read_spelling`, `Value.parse_spelling`).
Each part of the text ends at the delimiter that the layer around it awaits, and nothing inside a
part can be taken for that delimiter: this is what `Value.takeRaw_append` and
`Value.takeAtom_append` say of raw text and of atoms, for every list of lexemes that follows.
-/

namespace TestSynth

/-! ### Texts that end firmly -/

namespace Text

/-- The text ends in a character that is neither a blank between tokens nor part of an arrow. -/
def EndsFirm (s : List Char) : Prop :=
  ∃ c, s.getLast? = some c ∧ Lexeme.isGap c = false ∧ c ≠ '-'

/-- The text begins with a token. -/
def StartsFirm (s : List Char) : Prop := ∃ c, s.head? = some c ∧ Lexeme.isGap c = false

theorem EndsFirm.append {s : List Char} (h : EndsFirm s) (p : List Char) : EndsFirm (p ++ s) := by
  obtain ⟨c, hc, hfirm⟩ := h
  exact ⟨c, by rw [List.getLast?_append, hc, Option.some_or], hfirm⟩

theorem StartsFirm.append {s : List Char} (h : StartsFirm s) (rest : List Char) :
    StartsFirm (s ++ rest) := by
  obtain ⟨c, hc, hfirm⟩ := h
  exact ⟨c, by rw [List.head?_append, hc, Option.some_or], hfirm⟩

theorem EndsFirm.not_gap {s : List Char} (h : EndsFirm s) {c : Char} (hc : s.getLast? = some c) :
    Lexeme.isGap c = false := by
  obtain ⟨d, hd, hgap, -⟩ := h
  rw [hd] at hc
  cases hc
  exact hgap

theorem EndsFirm.not_dash {s : List Char} (h : EndsFirm s) : s.getLast? ≠ some '-' := by
  obtain ⟨d, hd, -, hdash⟩ := h
  rw [hd]
  simpa using hdash

theorem tight_of_firm {s : List Char} (hstart : StartsFirm s) (hend : EndsFirm s) :
    Lexeme.Tight s := by
  refine ⟨fun c hc => ?_, fun c hc => hend.not_gap hc⟩
  obtain ⟨d, hd, hgap⟩ := hstart
  rw [hd] at hc
  cases hc
  exact hgap

theorem isGap_eq_false {c : Char} (h : c ≠ ' ' ∧ c ≠ '\t' ∧ c ≠ '\n' ∧ c ≠ '\r') :
    Lexeme.isGap c = false := by
  obtain ⟨hspace, htab, hline, hreturn⟩ := h
  simp [Lexeme.isGap, hspace, htab, hline, hreturn]

theorem isGap_of_not_isBlank {c : Char} (h : isBlank c = false) : Lexeme.isGap c = false := by
  refine isGap_eq_false ⟨?_, ?_, ?_, ?_⟩
  all_goals
    rintro rfl
    exact absurd h (by decide)

theorem tight_of_trimmed {s : String} (h : trimmed s = s) : Lexeme.Tight s.toList := by
  have htrim : trim s.toList = s.toList := by
    have := congrArg String.toList h
    rwa [trimmed, String.toList_ofList] at this
  have hlen : s.toList.length ≤ (trimStart s.toList).length := calc
    s.toList.length = (trimEnd (trimStart s.toList)).length := by rw [← trim, htrim]
    _ = ((trimStart s.toList).reverse.dropWhile isBlank).length := by
      rw [trimEnd, List.length_reverse]
    _ ≤ (trimStart s.toList).reverse.length := (List.dropWhile_sublist isBlank).length_le
    _ = (trimStart s.toList).length := List.length_reverse
  -- no blank is dropped at either end, or the text would be shorter
  have hstart : trimStart s.toList = s.toList :=
    (List.dropWhile_sublist isBlank).eq_of_length_le hlen
  have hrev : s.toList.reverse.dropWhile isBlank = s.toList.reverse := by
    rw [trim, hstart, trimEnd] at htrim
    rw [← List.reverse_reverse (s.toList.reverse.dropWhile isBlank), htrim]
  constructor
  · intro c hc
    have := List.head?_dropWhile_not isBlank s.toList
    rw [show s.toList.dropWhile isBlank = s.toList from hstart, hc] at this
    exact isGap_of_not_isBlank (by simpa using this)
  · intro c hc
    have := List.head?_dropWhile_not isBlank s.toList.reverse
    rw [hrev, List.head?_reverse, hc] at this
    exact isGap_of_not_isBlank (by simpa using this)

end Text

/-! ### The leaves -/

namespace Lexeme

theorem readFrom_of_ofText {s : String} {t : Token} (h : Token.ofText s = [t]) (pos : Nat) :
    ∃ gap start, readFrom pos s.toList = [⟨gap, t, start⟩] := by
  have hmap : (readFrom pos s.toList).map token = [t] := by
    rw [map_token_readFrom pos 0]; exact h
  obtain ⟨l, hl, rfl⟩ := List.map_eq_singleton_iff.1 hmap
  exact ⟨l.gap, l.start, hl⟩

theorem isWordChar_of_ofText {s : String} {t : Token} (h : Token.ofText s = [t])
    (ht : t.isRun = true) (hs : t.spelling = s) :
    s.toList ≠ [] ∧ ∀ c ∈ s.toList, Token.isWordChar c = true := by
  rcases blank_or_scan? s.toList with hblank | ⟨t', rest, hscan⟩
  · have : Token.ofText s = [] := by
      rw [Token.ofText, Lexeme.ofText, readFrom_of_blank hblank]; rfl
    rw [this] at h
    cases h
  · have htokens := h
    rw [Token.ofText, Lexeme.ofText, readFrom_of_scan? hscan, List.map_cons, List.cons.injEq]
      at htokens
    obtain ⟨rfl, -⟩ := htokens
    rw [← hs]
    exact ⟨Token.spelling_ne_nil hscan, fun c hc => Token.isWordChar_of_scan? hscan ht hc⟩

theorem isGap_of_isWordChar {c : Char} (h : Token.isWordChar c = true) : isGap c = false := by
  refine Text.isGap_eq_false ⟨?_, ?_, ?_, ?_⟩
  all_goals
    rintro rfl
    exact absurd h (by decide)

theorem startsFirm_of_isWordChar {s : List Char} (hne : s ≠ [])
    (h : ∀ c ∈ s, Token.isWordChar c = true) : Text.StartsFirm s :=
  ⟨s.head hne, List.head?_eq_some_head hne, isGap_of_isWordChar (h _ (List.head_mem hne))⟩

theorem endsFirm_of_isWordChar {s : List Char} (hne : s ≠ [])
    (h : ∀ c ∈ s, Token.isWordChar c = true) : Text.EndsFirm s := by
  have hlast := h _ (List.getLast_mem hne)
  refine ⟨s.getLast hne, List.getLast?_eq_some_getLast hne, isGap_of_isWordChar hlast, ?_⟩
  intro hdash
  rw [hdash] at hlast
  exact absurd hlast (by decide)

end Lexeme

namespace Word

theorem isWordChar (w : Word) :
    w.text.toList ≠ [] ∧ ∀ c ∈ w.text.toList, Token.isWordChar c = true :=
  Lexeme.isWordChar_of_ofText w.isWord rfl rfl

theorem endsFirm (w : Word) : Text.EndsFirm w.text.toList :=
  Lexeme.endsFirm_of_isWordChar w.isWordChar.1 w.isWordChar.2

end Word

namespace RegisterName

theorem isWordChar (r : RegisterName) :
    r.text.toList ≠ [] ∧ ∀ c ∈ r.text.toList, Token.isWordChar c = true :=
  Lexeme.isWordChar_of_ofText r.isRegister rfl rfl

theorem startsFirm (r : RegisterName) : Text.StartsFirm r.text.toList :=
  Lexeme.startsFirm_of_isWordChar r.isWordChar.1 r.isWordChar.2

theorem endsFirm (r : RegisterName) : Text.EndsFirm r.text.toList :=
  Lexeme.endsFirm_of_isWordChar r.isWordChar.1 r.isWordChar.2

end RegisterName

theorem AtomForm.exists_getLast? {ts : List Token} {symbol : Option String}
    (h : AtomForm ts symbol) : ∃ t, ts.getLast? = some t ∧ t ≠ .minus := by
  cases h with
  | word text => exact ⟨_, rfl, by simp⟩
  | register name => exact ⟨_, rfl, by simp⟩
  | conjured name => exact ⟨_, rfl, by simp⟩
  | payload name inner h =>
    refine ⟨.closeBrace, ?_, by simp⟩
    rw [← List.cons_append, ← List.cons_append, List.getLast?_append]
    rfl

namespace Atom

variable (a : Atom)

theorem toList_ne_nil : a.text.toList ≠ [] := by
  intro h
  obtain ⟨t, ht, -⟩ := a.form.exists_getLast?
  rw [Token.ofText, Lexeme.ofText, h, Lexeme.readFrom_nil] at ht
  cases ht

theorem startsFirm : Text.StartsFirm a.text.toList :=
  ⟨_, List.head?_eq_some_head a.toList_ne_nil,
    (Text.tight_of_trimmed a.trimmed).1 _ (List.head?_eq_some_head a.toList_ne_nil)⟩

theorem endsFirm : Text.EndsFirm a.text.toList := by
  have hlast := List.getLast?_eq_some_getLast a.toList_ne_nil
  refine ⟨_, hlast, (Text.tight_of_trimmed a.trimmed).2 _ hlast, fun hdash => ?_⟩
  obtain ⟨t, ht, hminus⟩ := a.form.exists_getLast?
  rw [hdash] at hlast
  rw [Token.ofText, Lexeme.ofText, Lexeme.getLast?_of_dash hlast] at ht
  exact hminus (Option.some.inj ht).symm

end Atom

namespace Value

/-! ### Raw text -/

/-- The token that is awaited. -/
def Awaited.token? : Awaited → Option Token
  | nothing => none
  | comma => some .comma
  | closeAngle => some .closeAngle
  | closeBrace => some .closeBrace

/-- The lexemes begin with what is awaited, or end if nothing is. -/
def Awaited.Stops (awaited : Awaited) (rest : List Lexeme) : Prop :=
  rest.head?.map Lexeme.token = awaited.token?

theorem Awaited.Stops.endsAt {awaited : Awaited} {l : Lexeme} {rest : List Lexeme}
    (h : awaited.Stops (l :: rest)) : awaited.endsAt 0 l.token = true := by
  have h : some l.token = awaited.token? := h
  cases awaited <;> simp only [token?, Option.some.injEq, reduceCtorEq] at h <;> rw [h] <;> rfl

theorem Awaited.stops_nothing : nothing.Stops [] := rfl

theorem Awaited.stops_comma (pos : Nat) (rest : List Lexeme) :
    comma.Stops (⟨"", .comma, pos⟩ :: rest) := rfl

theorem Awaited.stops_closeAngle (pos : Nat) (rest : List Lexeme) :
    closeAngle.Stops (⟨"", .closeAngle, pos⟩ :: rest) := rfl

theorem Awaited.stops_closeBrace (pos : Nat) (rest : List Lexeme) :
    closeBrace.Stops (⟨"", .closeBrace, pos⟩ :: rest) := rfl

/-- Raw text may contain the tokens: none of them ends it, and all groups are closed. -/
def Awaited.Admits (awaited : Awaited) (nesting : Nat) (ts : List Token) : Prop :=
  Token.isBalanced nesting ts = true ∧ (awaited = comma → Token.isCommaFree nesting ts = true) ∧
    (awaited = closeAngle → False)

theorem Awaited.Admits.step {awaited : Awaited} {nesting : Nat} {t : Token} {ts : List Token}
    (h : awaited.Admits nesting (t :: ts)) :
    (nesting = 0 && awaited.endsAt 0 t) = false ∧ awaited.Admits (t.nest nesting) ts := by
  obtain ⟨hbalanced, hcomma, hangle⟩ := h
  rw [Token.isBalanced] at hbalanced
  have hcomma' : awaited = comma → ¬(nesting = 0 ∧ t = .comma) ∧
      Token.isCommaFree (t.nest nesting) ts = true := by
    intro ha
    have := hcomma ha
    simp only [Token.isCommaFree, Bool.and_eq_true, Bool.not_eq_true', Bool.and_eq_false_iff,
      beq_eq_false_iff_ne] at this
    exact ⟨fun ⟨hn, ht⟩ => this.1.elim (· hn) (· ht), this.2⟩
  -- outside all groups only the delimiters end the text, and no group is closed there
  refine ⟨?_, ?_, fun ha => (hcomma' ha).2, hangle⟩
  · rw [Bool.and_eq_false_iff]
    by_cases hn : nesting = 0
    · right
      subst hn
      cases t
      case comma =>
        cases awaited
        case comma => exact absurd ⟨rfl, rfl⟩ (hcomma' rfl).1
        all_goals rfl
      case closeAngle =>
        cases awaited
        case closeAngle => exact (hangle rfl).elim
        all_goals rfl
      case closeBrace | closeParen | closeBracket =>
        simp [Token.opensGroup, Token.opensBrace, Token.closesGroup] at hbalanced
      all_goals rfl
    · exact .inl (decide_eq_false hn)
  · rw [Token.nest]
    split at hbalanced
    · next hopen => rw [if_pos hopen]; exact hbalanced
    · next hopen =>
      rw [if_neg hopen]
      split at hbalanced
      · next hclose =>
        rw [if_pos hclose]
        exact (Bool.and_eq_true _ _ ▸ hbalanced).2
      · next hclose => rw [if_neg hclose]; exact hbalanced

/-- Raw text is taken up to the delimiter that is awaited. -/
theorem takeRaw_append {awaited : Awaited} {l : Lexeme} {rest : List Lexeme}
    (hstop : awaited.Stops (l :: rest)) {nesting : Nat} {ls : List Lexeme}
    (h : awaited.Admits nesting (ls.map Lexeme.token)) :
    takeRaw awaited nesting (ls ++ l :: rest) = some (ls, l :: rest) := by
  induction ls generalizing nesting with
  | nil =>
    have hn : nesting = 0 := by simpa [Token.isBalanced] using h.1
    subst hn
    rw [List.nil_append, takeRaw, hstop.endsAt]
    rfl
  | cons m ls ih =>
    obtain ⟨hends, hrest⟩ := h.step
    rw [List.cons_append, takeRaw, hends, ih hrest]
    rfl

theorem rawText_readFrom {s : String} (h : Text.trimmed s = s) (pos : Nat) :
    rawText (Lexeme.readFrom pos s.toList) = s := by
  rw [rawText, Lexeme.sourceText_readFrom (Text.tight_of_trimmed h), String.ofList_toList, h]

theorem raw_append {s : String} (htrim : Text.trimmed s = s) {awaited : Awaited}
    (h : awaited.Admits 0 (Token.ofText s)) {l : Lexeme} {rest : List Lexeme}
    (hstop : awaited.Stops (l :: rest)) (opener : String) (opened pos : Nat) :
    raw opener opened awaited (Lexeme.readFrom pos s.toList ++ l :: rest) = .ok (s, l :: rest) := by
  have hadmits : awaited.Admits 0 ((Lexeme.readFrom pos s.toList).map Lexeme.token) := by
    rw [Lexeme.map_token_readFrom pos 0]; exact h
  rw [raw, takeRaw_append hstop hadmits]
  simp only [rawText_readFrom htrim]

theorem expect_cons {size opened : Nat} {opener : String} {token : Token} {l : Lexeme}
    {rest : List Lexeme} (h : l.token = token) :
    expect size opener opened token (l :: rest) = .ok rest := by
  rw [expect, if_pos h]

/-! ### Atoms -/

/-- An atom that has been read up to `st` goes on with the tokens. -/
def AtomState.Passes (awaited : Awaited) : AtomState → List Token → Prop
  | _, [] => True
  | st, t :: ts =>
    (st.nesting = 0 && awaited.endsAt st.angles t) = false ∧ Passes awaited (st.push t) ts

theorem AtomState.passes_append {awaited : Awaited} {st : AtomState} {ts us : List Token}
    (hts : st.Passes awaited ts) (hus : (ts.foldl AtomState.push st).Passes awaited us) :
    st.Passes awaited (ts ++ us) := by
  induction ts generalizing st with
  | nil => exact hus
  | cons t ts ih => exact ⟨hts.1, ih hts.2 hus⟩

/-- Atoms are taken up to the delimiter that is awaited. -/
theorem takeAtom_append {awaited : Awaited} {rest : List Lexeme} (hstop : awaited.Stops rest)
    {st st' : AtomState} {ls : List Lexeme} (hpass : st.Passes awaited (ls.map Lexeme.token))
    (hst : (ls.map Lexeme.token).foldl AtomState.push st = st') (hnesting : st'.nesting = 0)
    (hangles : st'.angles = 0) :
    takeAtom awaited st (ls ++ rest) = (ls, st', rest) := by
  induction ls generalizing st with
  | nil =>
    rw [List.map_nil, List.foldl_nil] at hst
    subst hst
    cases rest with
    | nil => rfl
    | cons l rest => rw [List.nil_append, takeAtom, hnesting, hangles, hstop.endsAt]; rfl
  | cons l ls ih =>
    rw [List.cons_append, takeAtom, hpass.1]
    simp only [Bool.false_eq_true, if_false]
    rw [ih hpass.2 hst]

/-- How far an atom has been read that is a conjured symbol with a part of its payload. -/
def payloadState (name : String) (nesting : Nat) : AtomState :=
  ⟨nesting, 0, [.openBrace, .conjured name]⟩

theorem push_payloadState (name : String) (nesting : Nat) (t : Token) :
    (payloadState name (nesting + 1)).push t = payloadState name (t.nest (nesting + 1)) := by
  simp only [payloadState, AtomState.push, Nat.add_eq_zero_iff, Nat.succ_ne_self, and_false,
    if_false, AtomState.mk.injEq, and_true, true_and]
  cases t <;> rfl

/-- A payload is part of the atom whatever stands in it, as long as its groups are closed. -/
theorem passes_payload (awaited : Awaited) (name : String) {nesting : Nat} {ts : List Token}
    (h : Token.isBalanced nesting ts = true) :
    (payloadState name (nesting + 1)).Passes awaited ts ∧
      ts.foldl AtomState.push (payloadState name (nesting + 1)) = payloadState name 1 := by
  induction ts generalizing nesting with
  | nil =>
    have hn : nesting = 0 := by simpa [Token.isBalanced] using h
    subst hn
    exact ⟨trivial, rfl⟩
  | cons t ts ih =>
    -- the brace of the payload stays open, whatever the token does to the groups inside it
    have hstep : ∃ n, t.nest (nesting + 1) = n + 1 ∧ Token.isBalanced n ts = true := by
      rw [Token.isBalanced] at h
      rw [Token.nest]
      split at h
      · next hopen => exact ⟨nesting + 1, by rw [if_pos hopen], h⟩
      · next hopen =>
        rw [if_neg hopen]
        split at h
        · next hclose =>
          rw [Bool.and_eq_true, decide_eq_true_eq] at h
          exact ⟨nesting - 1, by rw [if_pos hclose]; omega, h.2⟩
        · next hclose => exact ⟨nesting, by rw [if_neg hclose], h⟩
    obtain ⟨n, hnest, hbalanced⟩ := hstep
    obtain ⟨hpass, hfold⟩ := ih hbalanced
    refine ⟨⟨rfl, ?_⟩, ?_⟩
    · rw [push_payloadState, hnest]; exact hpass
    · rw [List.foldl_cons, push_payloadState, hnest]; exact hfold

/-- How an atom that refers to `symbol` has been read at its end. -/
def AtomState.EndsWith (symbol : Option String) (st : AtomState) : Prop :=
  st.nesting = 0 ∧ st.angles = 0 ∧ ∀ text,
    (match st.items with
      | [.register symbol] | [.conjured symbol] | [.openBrace, .conjured symbol] =>
        reference symbol text
      | _ => atom text) = symbol.elim (atom text) fun symbol => reference symbol text

theorem passes_of_form (awaited : Awaited) {ts : List Token} {symbol : Option String}
    (h : AtomForm ts symbol) :
    AtomState.Passes awaited {} ts ∧ (ts.foldl AtomState.push {}).EndsWith symbol := by
  cases h with
  | word text => exact ⟨⟨by cases awaited <;> rfl, trivial⟩, rfl, rfl, fun _ => rfl⟩
  | register name => exact ⟨⟨by cases awaited <;> rfl, trivial⟩, rfl, rfl, fun _ => rfl⟩
  | conjured name => exact ⟨⟨by cases awaited <;> rfl, trivial⟩, rfl, rfl, fun _ => rfl⟩
  | payload name inner h =>
    obtain ⟨hpass, hfold⟩ := passes_payload awaited name h
    refine ⟨⟨by cases awaited <;> rfl, by cases awaited <;> rfl, ?_⟩, ?_⟩
    · show (payloadState name 1).Passes awaited (inner ++ [.closeBrace])
      refine AtomState.passes_append hpass ?_
      rw [hfold]
      exact ⟨rfl, trivial⟩
    · rw [List.foldl_cons, List.foldl_cons, List.foldl_append]
      show ((List.foldl AtomState.push (payloadState name 1) inner).push .closeBrace).EndsWith _
      rw [hfold]
      exact ⟨rfl, rfl, fun _ => rfl⟩

theorem atomValue_append (a : Atom) {awaited : Awaited} {rest : List Lexeme}
    (hstop : awaited.Stops rest) (size pos : Nat) :
    atomValue size awaited (Lexeme.readFrom pos a.text.toList ++ rest) =
      .ok ((ValueTree.atom a).toValue, rest) := by
  have hform : AtomForm ((Lexeme.readFrom pos a.text.toList).map Lexeme.token) a.symbol := by
    rw [Lexeme.map_token_readFrom pos 0]; exact a.form
  obtain ⟨hpass, hnesting, hangles, hvalue⟩ := passes_of_form awaited hform
  have htext : a.text.isEmpty = false := by
    rw [String.isEmpty_eq_false_iff]
    intro h0
    exact a.toList_ne_nil (by rw [h0]; rfl)
  rw [atomValue, takeAtom_append hstop hpass rfl hnesting hangles]
  simp only [rawText_readFrom a.trimmed, hnesting, htext, Nat.lt_irrefl, if_false,
    Bool.false_eq_true]
  exact congrArg (fun v => Except.ok (v, rest)) (hvalue a.text)

end Value

/-! ### Trees -/

/-- The delimiters that separate the parts of a value. -/
def Token.isDelimiter : Token → Bool
  | comma | closeBrace | openAngle | dot | closeAngle => true
  | _ => false

/-- Only an arrow could reach over the seam in front of a delimiter. -/
theorem Token.seam_delimiter {s : List Char} {t : Token} (ht : t.isDelimiter = true)
    (hdash : t = .closeAngle → s.getLast? ≠ some '-') (more : List Char) :
    Token.Seam s (t.spelling.toList ++ more) := by
  intro c hc
  cases t <;> cases ht <;> cases hc
  case comma => exact .inl rfl
  case closeBrace => exact .inr (.inl rfl)
  case openAngle => exact .inr (.inr (.inl rfl))
  case dot => exact .inr (.inr (.inr (.inl rfl)))
  case closeAngle => exact .inr (.inr (.inr (.inr ⟨rfl, hdash rfl⟩)))

namespace Lexeme

theorem readFrom_of_startsFirm {pos : Nat} {s rest : List Char} {t : Token}
    (h : Token.scan? s = some (t, rest)) (hs : Text.StartsFirm s) :
    readFrom pos s = ⟨"", t, pos⟩ :: readFrom (pos + bytes t.spelling.toList) rest := by
  obtain ⟨c, hc, hgap⟩ := hs
  obtain ⟨s', rfl⟩ := List.head?_eq_some_iff.1 hc
  have hc' : ¬isGap c = true := by simp [hgap]
  have hscan : Token.scan? ((c :: s').dropWhile isGap) = some (t, rest) := by
    rw [List.dropWhile_cons_of_neg hc', h]
  rw [readFrom_of_scan? hscan, List.takeWhile_cons_of_neg hc']
  rfl

theorem readFrom_delimiter (pos : Nat) {t : Token} (ht : t.isDelimiter = true) (s : List Char) :
    readFrom pos (t.spelling.toList ++ s) =
      ⟨"", t, pos⟩ :: readFrom (pos + bytes t.spelling.toList) s := by
  cases t <;> cases ht
  all_goals exact readFrom_of_startsFirm rfl ⟨_, rfl, rfl⟩

theorem readFrom_open (pos : Nat) {t : Token} (ht : t = .elementOpen ∨ t = .regionOpen)
    (s : List Char) :
    readFrom pos (t.spelling.toList ++ s) =
      ⟨"", t, pos⟩ :: readFrom (pos + bytes t.spelling.toList) s := by
  rcases ht with rfl | rfl
  all_goals exact readFrom_of_startsFirm rfl ⟨_, rfl, rfl⟩

theorem readFrom_append_delimiter {s : List Char} {t : Token} (ht : t.isDelimiter = true)
    (hgap : ∀ c, s.getLast? = some c → isGap c = false)
    (hdash : t = .closeAngle → s.getLast? ≠ some '-') (pos : Nat) :
    ∃ p p', ∀ more, readFrom pos (s ++ (t.spelling.toList ++ more)) =
      readFrom pos s ++ ⟨"", t, p⟩ :: readFrom p' more :=
  ⟨_, _, fun more => by
    rw [readFrom_append hgap (Token.seam_delimiter ht hdash more), readFrom_delimiter _ ht]⟩

end Lexeme

namespace ValueTree

theorem endsFirm_fields (fields : List Word) {p : List Char} (h : Text.EndsFirm p) :
    Text.EndsFirm (p ++ (fieldsSpelling fields).toList) := by
  induction fields generalizing p with
  | nil => simpa [fieldsSpelling] using h
  | cons field fields ih =>
    rw [fieldsSpelling, String.toList_append, String.toList_append, ← List.append_assoc,
      ← List.append_assoc]
    exact ih (field.endsFirm.append _)

theorem endsFirm (v : ValueTree) : Text.EndsFirm v.spelling.toList := by
  cases v with
  | atom a => exact a.endsFirm
  | element base index type fields =>
    simp only [spelling, String.toList_append]
    exact ((((((endsFirm_fields fields ⟨'}', rfl, rfl, by decide⟩).append _).append _).append
      _).append _).append _).append _
  | region inner fields =>
    simp only [spelling, String.toList_append]
    exact ((endsFirm_fields fields ⟨'}', rfl, rfl, by decide⟩).append _).append _
  | definition name type inner =>
    simp only [spelling, String.toList_append]
    exact ((((Text.EndsFirm.append ⟨'>', rfl, rfl, by decide⟩ _).append _).append _).append
      _).append _

theorem startsFirm (v : ValueTree) : Text.StartsFirm v.spelling.toList := by
  cases v with
  | atom a => exact a.startsFirm
  | element base index type fields =>
    rw [spelling, String.toList_append]
    exact Text.StartsFirm.append ⟨'E', rfl, rfl⟩ _
  | region inner fields =>
    rw [spelling, String.toList_append]
    exact Text.StartsFirm.append ⟨'S', rfl, rfl⟩ _
  | definition name type inner =>
    rw [spelling, String.toList_append]
    exact name.startsFirm.append _

theorem depth_pos (v : ValueTree) : 0 < v.depth := by
  cases v <;> simp [depth]

end ValueTree

namespace Value

open Lexeme (readFrom)

theorem ok_bind {ε α β : Type} (a : α) (f : α → Except ε β) : (Except.ok a >>= f) = f a := rfl

theorem fieldNames_append (fields : List Word) {rest : List Lexeme}
    (h : ∀ l, rest.head? = some l → l.token ≠ .dot) (size pos : Nat) :
    fieldNames size (readFrom pos (ValueTree.fieldsSpelling fields).toList ++ rest) =
      .ok (fields.map Word.text, rest) := by
  induction fields generalizing pos with
  | nil =>
    show fieldNames size (readFrom pos [] ++ rest) = _
    rw [Lexeme.readFrom_nil, List.nil_append]
    exact fieldNames_of_not_dot h
  | cons field fields ih =>
    have hseam : Token.Seam field.text.toList (ValueTree.fieldsSpelling fields).toList := by
      cases fields with
      | nil => exact Token.Seam.nil _
      | cons f fs =>
        rw [ValueTree.fieldsSpelling, String.toList_append]
        exact Token.seam_delimiter (t := .dot) rfl nofun _
    rw [ValueTree.fieldsSpelling, String.toList_append, String.toList_append]
    show fieldNames size (readFrom pos (Token.dot.spelling.toList ++ _) ++ rest) = _
    rw [Lexeme.readFrom_delimiter pos rfl,
      Lexeme.readFrom_append (fun c hc => field.endsFirm.not_gap hc) hseam]
    obtain ⟨gap, start, hfield⟩ :=
      Lexeme.readFrom_of_ofText field.isWord (pos + Lexeme.bytes Token.dot.spelling.toList)
    rw [hfield, List.cons_append, List.append_assoc, List.singleton_append, fieldNames, ih]
    rfl

theorem Awaited.Stops.not_dot {awaited : Awaited} {rest : List Lexeme} (h : awaited.Stops rest)
    (l : Lexeme) (hl : rest.head? = some l) : l.token ≠ .dot := by
  intro hdot
  rw [Stops, hl, Option.map_some, hdot] at h
  cases awaited <;> cases h

/-- Raw text in brackets of no kind and without commas may stand everywhere. -/
theorem admits_of_flat {ts : List Token}
    (h : ∀ t ∈ ts, t.opensGroup = false ∧ t.closesGroup = false ∧ t ≠ .comma) :
    Awaited.comma.Admits 0 ts := by
  induction ts with
  | nil => exact ⟨rfl, fun _ => rfl, nofun⟩
  | cons t ts ih =>
    obtain ⟨hopen, hclose, hcomma⟩ := h t List.mem_cons_self
    obtain ⟨hbalanced, hfree, -⟩ := ih fun u hu => h u (List.mem_cons_of_mem t hu)
    refine ⟨?_, fun hawaited => ?_, nofun⟩
    · rw [Token.isBalanced, hopen, hclose]
      exact hbalanced
    · rw [Token.isCommaFree, Token.nest, hopen, hclose, Bool.and_eq_true]
      exact ⟨by simp [hcomma], hfree hawaited⟩

theorem admits_index (i : Int) : Awaited.comma.Admits 0 (Token.ofText (toString i)) := by
  refine admits_of_flat fun t ht => ?_
  obtain ⟨l, hl, rfl⟩ := List.mem_map.1 ht
  have hchars : ∀ c ∈ l.token.spelling.toList, c.isDigit = true ∨ c = '-' :=
    fun c hc => Index.isDigit_or_minus_of_mem (Lexeme.mem_of_mem_readFrom hl hc)
  cases htoken : l.token <;> rw [htoken] at hchars
  case register | conjured | word => exact ⟨rfl, rfl, nofun⟩
  case openAngle | closeAngle | dot | arrow | minus => exact ⟨rfl, rfl, nofun⟩
  all_goals exact absurd (hchars _ (List.head_mem (by decide))) (by decide)

theorem elementTail_append (size opened comma' index' comma'' type' brace' : Nat) (i : InnerIndex)
    (type : TypeText) (rest : List Lexeme) :
    elementTail size opened (⟨"", .comma, comma'⟩ :: (readFrom index' (toString i.value).toList ++
      ⟨"", .comma, comma''⟩ :: (readFrom type' type.text.toList ++
        ⟨"", .closeBrace, brace'⟩ :: rest))) = .ok (i.value, type.text, rest) := by
  have hindex (opener : String) (more : List Lexeme) :
      raw opener opened .comma (readFrom index' (toString i.value).toList ++
        ⟨"", .comma, comma''⟩ :: more) = .ok (toString i.value, ⟨"", .comma, comma''⟩ :: more) :=
    raw_append (Index.trimmed_toString i.value) (admits_index i.value) (Awaited.stops_comma _ _) ..
  have hadmits : Awaited.closeBrace.Admits 0 (Token.ofText type.text) :=
    ⟨type.balanced, nofun, nofun⟩
  have htype (opener : String) (more : List Lexeme) :
      raw opener opened .closeBrace (readFrom type' type.text.toList ++
        ⟨"", .closeBrace, brace'⟩ :: more) = .ok (type.text, ⟨"", .closeBrace, brace'⟩ :: more) :=
    raw_append type.trimmed hadmits (Awaited.stops_closeBrace _ _) ..
  have hparse := Index.parse_toString i.least_lt (Int.le_of_lt i.lt_greatest)
  simp only [elementTail, ok_bind, expect_cons, hindex, htype, hparse]
  rfl

/-- A text whose first lexemes open nothing is read as an atom. -/
theorem read_eq_atomValue {size limit depth : Nat} {awaited : Awaited} {ls : List Lexeme}
    (hne : ls ≠ []) (helement : ∀ ts, ls.map Lexeme.token ≠ .elementOpen :: ts)
    (hregion : ∀ ts, ls.map Lexeme.token ≠ .regionOpen :: ts)
    (hdefinition : ∀ name ts, ls.map Lexeme.token ≠ .register name :: .openAngle :: ts) :
    read size limit (depth + 1) awaited ls = (atomValue size awaited ls).mapError (⟨none, ·⟩) := by
  unfold read
  split
  · exact absurd rfl hne
  · exact absurd rfl (helement _)
  · exact absurd rfl (hregion _)
  · exact absurd rfl (hdefinition _ _)
  · rfl

/-- An atom is read whatever is awaited behind it. -/
theorem read_atom (a : Atom) {awaited : Awaited} {rest : List Lexeme} (hstop : awaited.Stops rest)
    (size limit depth pos : Nat) :
    read size limit (depth + 1) awaited (readFrom pos a.text.toList ++ rest) =
      .ok ((ValueTree.atom a).toValue, rest) := by
  have hform : AtomForm ((readFrom pos a.text.toList).map Lexeme.token) a.symbol := by
    rw [Lexeme.map_token_readFrom pos 0]; exact a.form
  rw [read_eq_atomValue, atomValue_append a hstop]
  · rfl
  all_goals
    generalize htokens : (readFrom pos a.text.toList).map Lexeme.token = ts at hform
    generalize a.symbol = symbol at hform
  · intro h0
    rw [(List.append_eq_nil_iff.1 h0).1] at htokens
    cases htokens
    cases hform
  · intro us h
    rw [List.map_append, htokens] at h
    cases hform <;> simp at h
  · intro us h
    rw [List.map_append, htokens] at h
    cases hform <;> simp at h
  · -- what is awaited behind a lone register does not open a definition
    intro name us h
    rw [List.map_append, htokens] at h
    cases hform
    case register =>
      cases rest with
      | nil => cases h
      | cons l rest =>
        have hangle : l.token = .openAngle := (by simpa using h : _ ∧ l.token = .openAngle ∧ _).2.1
        rw [Awaited.Stops, List.head?_cons, Option.map_some, hangle] at hstop
        cases awaited <;> cases hstop
    all_goals simp at h

/-! ### Layouts -/

section Layout

variable (pos : Nat) (rest : List Lexeme)

/-- The lexemes of an element: its parts, with delimiters between them. -/
theorem readFrom_element (base : ValueTree) (index : InnerIndex) (type : TypeText)
    (fields : List Word) :
    ∃ base' comma' index' comma'' type' brace' fields',
      readFrom pos (ValueTree.element base index type fields).spelling.toList ++ rest =
        ⟨"", .elementOpen, pos⟩ :: (readFrom base' base.spelling.toList ++
          ⟨"", .comma, comma'⟩ :: (readFrom index' (toString index.value).toList ++
            ⟨"", .comma, comma''⟩ :: (readFrom type' type.text.toList ++
              ⟨"", .closeBrace, brace'⟩ ::
                (readFrom fields' (ValueTree.fieldsSpelling fields).toList ++ rest)))) := by
  have hindex : ∀ c, (toString index.value).toList.getLast? = some c → Lexeme.isGap c = false :=
    fun c hc => Text.isGap_of_not_isBlank (Index.not_isBlank_of_mem (List.mem_of_getLast? hc))
  have htype := (Text.tight_of_trimmed type.trimmed).2
  obtain ⟨comma', index', hbase⟩ := Lexeme.readFrom_append_delimiter (t := .comma) rfl
    (fun c hc => base.endsFirm.not_gap hc) nofun
    (pos + Lexeme.bytes Token.elementOpen.spelling.toList)
  obtain ⟨comma'', type', hindex⟩ :=
    Lexeme.readFrom_append_delimiter (t := .comma) rfl hindex nofun index'
  obtain ⟨brace', fields', htype⟩ :=
    Lexeme.readFrom_append_delimiter (t := .closeBrace) rfl htype nofun type'
  refine ⟨pos + Lexeme.bytes Token.elementOpen.spelling.toList, comma', index', comma'', type',
    brace', fields', ?_⟩
  simp only [ValueTree.spelling, String.toList_append]
  show readFrom pos (Token.elementOpen.spelling.toList ++ (base.spelling.toList ++
    (Token.comma.spelling.toList ++ ((toString index.value).toList ++
      (Token.comma.spelling.toList ++ (type.text.toList ++
        (Token.closeBrace.spelling.toList ++ _))))))) ++ rest = _
  rw [Lexeme.readFrom_open pos (.inl rfl), hbase, hindex, htype]
  simp only [List.cons_append, List.append_assoc]

theorem readFrom_region (inner : ValueTree) (fields : List Word) :
    ∃ inner' brace' fields',
      readFrom pos (ValueTree.region inner fields).spelling.toList ++ rest =
        ⟨"", .regionOpen, pos⟩ :: (readFrom inner' inner.spelling.toList ++
          ⟨"", .closeBrace, brace'⟩ ::
            (readFrom fields' (ValueTree.fieldsSpelling fields).toList ++ rest)) := by
  obtain ⟨brace', fields', hinner⟩ := Lexeme.readFrom_append_delimiter (t := .closeBrace) rfl
    (fun c hc => inner.endsFirm.not_gap hc) nofun
    (pos + Lexeme.bytes Token.regionOpen.spelling.toList)
  refine ⟨pos + Lexeme.bytes Token.regionOpen.spelling.toList, brace', fields', ?_⟩
  simp only [ValueTree.spelling, String.toList_append]
  show readFrom pos (Token.regionOpen.spelling.toList ++ (inner.spelling.toList ++
    (Token.closeBrace.spelling.toList ++ _))) ++ rest = _
  rw [Lexeme.readFrom_open pos (.inr rfl), hinner]
  simp only [List.cons_append, List.append_assoc]

theorem readFrom_definition (name : RegisterName) (type : ItemType) (inner : ValueTree) :
    ∃ gap name' open' type' comma' inner' close',
      readFrom pos (ValueTree.definition name type inner).spelling.toList ++ rest =
        ⟨gap, .register name.text, name'⟩ :: ⟨"", .openAngle, open'⟩ ::
          (readFrom type' type.text.toList ++ ⟨"", .comma, comma'⟩ ::
            (readFrom inner' inner.spelling.toList ++ ⟨"", .closeAngle, close'⟩ :: rest)) := by
  have htype := (Text.tight_of_trimmed type.trimmed).2
  obtain ⟨gap, name', hname⟩ := Lexeme.readFrom_of_ofText name.isRegister pos
  obtain ⟨open', type', hopen⟩ := Lexeme.readFrom_append_delimiter (t := .openAngle) rfl
    (fun c hc => name.endsFirm.not_gap hc) nofun pos
  obtain ⟨comma', inner', htype⟩ :=
    Lexeme.readFrom_append_delimiter (t := .comma) rfl htype nofun type'
  obtain ⟨close', end', hinner⟩ := Lexeme.readFrom_append_delimiter (t := .closeAngle) rfl
    (fun c hc => inner.endsFirm.not_gap hc) (fun _ => inner.endsFirm.not_dash) inner'
  refine ⟨gap, name', open', type', comma', inner', close', ?_⟩
  simp only [ValueTree.spelling, String.toList_append]
  show readFrom pos (name.text.toList ++ (Token.openAngle.spelling.toList ++
    (type.text.toList ++ (Token.comma.spelling.toList ++ (inner.spelling.toList ++
      (Token.closeAngle.spelling.toList ++ [])))))) ++ rest = _
  rw [hopen, hname, htype, hinner, Lexeme.readFrom_nil]
  simp only [List.cons_append, List.append_assoc, List.nil_append]

end Layout

/-! ### Values -/

theorem sourceText_take (v : ValueTree) (pos : Nat) (rest : List Lexeme) :
    Lexeme.sourceText ((readFrom pos v.spelling.toList ++ rest).take
      ((readFrom pos v.spelling.toList ++ rest).length - rest.length)) = v.spelling := by
  rw [List.length_append, Nat.add_sub_cancel, List.take_left,
    Lexeme.sourceText_readFrom (Text.tight_of_firm v.startsFirm v.endsFirm), String.ofList_toList]

/-- **The text of a tree is read as its value, and nothing that follows is touched.** -/
theorem read_spelling (size limit : Nat) (v : ValueTree) {depth : Nat} {awaited : Awaited}
    {rest : List Lexeme} (hdepth : v.depth ≤ depth) (hstop : awaited.Stops rest) (pos : Nat) :
    read size limit depth awaited (readFrom pos v.spelling.toList ++ rest) =
      .ok (v.toValue, rest) := by
  obtain ⟨depth, rfl⟩ := Nat.exists_eq_add_of_le' (Nat.le_trans v.depth_pos hdepth)
  -- what is awaited behind the tree changes with every layer, so it is part of the hypothesis
  induction v generalizing depth awaited rest pos with
  | atom a => exact read_atom a hstop size limit depth pos
  | element base index type fields ih =>
    obtain ⟨base', comma', index', comma'', type', brace', fields', hlayout⟩ :=
      readFrom_element pos rest base index type fields
    have hinner : base.depth ≤ depth := Nat.le_of_succ_le_succ hdepth
    obtain ⟨depth, rfl⟩ := Nat.exists_eq_add_of_le' (Nat.le_trans base.depth_pos hinner)
    have hbase (more : List Lexeme) :
        read size limit (depth + 1) .comma (readFrom base' base.spelling.toList ++
          ⟨"", .comma, comma'⟩ :: more) = .ok (base.toValue, ⟨"", .comma, comma'⟩ :: more) :=
      ih (Awaited.stops_comma _ _) base' depth hinner
    rw [hlayout]
    show elementValue (read size limit (depth + 1)) size pos _ = _
    simp only [elementValue, hbase, ok_bind, elementTail_append, Except.mapError,
      fieldNames_append fields hstop.not_dot]
    rfl
  | region inner fields ih =>
    obtain ⟨inner', brace', fields', hlayout⟩ := readFrom_region pos rest inner fields
    have hdepth' : inner.depth ≤ depth := Nat.le_of_succ_le_succ hdepth
    obtain ⟨depth, rfl⟩ := Nat.exists_eq_add_of_le' (Nat.le_trans inner.depth_pos hdepth')
    have hinner (more : List Lexeme) :
        read size limit (depth + 1) .closeBrace (readFrom inner' inner.spelling.toList ++
          ⟨"", .closeBrace, brace'⟩ :: more) =
            .ok (inner.toValue, ⟨"", .closeBrace, brace'⟩ :: more) :=
      ih (Awaited.stops_closeBrace _ _) inner' depth hdepth'
    rw [hlayout]
    show regionValue (read size limit (depth + 1)) size pos _ = _
    simp only [regionValue, hinner, ok_bind, expect_cons, Except.mapError,
      fieldNames_append fields hstop.not_dot]
    rfl
  | definition name type inner ih =>
    obtain ⟨gap, name', open', type', comma', inner', close', hlayout⟩ :=
      readFrom_definition pos rest name type inner
    have hdepth' : inner.depth ≤ depth := Nat.le_of_succ_le_succ hdepth
    obtain ⟨depth, rfl⟩ := Nat.exists_eq_add_of_le' (Nat.le_trans inner.depth_pos hdepth')
    have hadmits : Awaited.comma.Admits 0 (Token.ofText type.text) :=
      ⟨type.balanced, fun _ => type.commaFree, nofun⟩
    have htype (opener : String) (more : List Lexeme) :
        raw opener name' .comma (readFrom type' type.text.toList ++ ⟨"", .comma, comma'⟩ :: more) =
          .ok (type.text, ⟨"", .comma, comma'⟩ :: more) :=
      raw_append type.trimmed hadmits (Awaited.stops_comma _ _) ..
    have hinner :
        read size limit (depth + 1) .closeAngle (readFrom inner' inner.spelling.toList ++
          ⟨"", .closeAngle, close'⟩ :: rest) =
            .ok (inner.toValue, ⟨"", .closeAngle, close'⟩ :: rest) :=
      ih (Awaited.stops_closeAngle _ _) inner' depth hdepth'
    have hsource := sourceText_take inner inner' (⟨"", .closeAngle, close'⟩ :: rest)
    rw [hlayout]
    show definitionValue (read size limit (depth + 1)) size name' name.text _ = _
    simp only [definitionValue, htype, hinner, ok_bind, expect_cons, Except.mapError, hsource]
    rfl

/-- **A tree is read back from its text**, unless it is nested too deep. -/
theorem parse_spelling {limit : Nat} {v : ValueTree} (hdepth : v.depth ≤ limit) :
    parse limit v.spelling = .ok v.toValue := by
  have hread : read v.spelling.utf8ByteSize limit limit .nothing
      (readFrom 0 v.spelling.toList ++ []) = .ok (v.toValue, []) :=
    read_spelling _ limit v hdepth Awaited.stops_nothing 0
  rw [List.append_nil] at hread
  simp only [parse, Lexeme.ofText, hread, ok_bind]
  rfl

end Value

end TestSynth
