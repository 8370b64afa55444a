import TestSynth.Proofs.Layers
import TestSynth.Proofs.ValueTree

/-!
# Nesting of brackets

The layers of a value match their own braces.  The brackets in its raw texts, in atoms, indices and
types, are only counted: a group that is opened there is closed by the next bracket that closes
anything.  So a text that is read as a value never closes more groups than are open and leaves none
open, but its brackets match in kind only if they do in each of its raw texts.

* `Token.Nested` : each bracket is closed by one of its own kind.
* `Token.closesAll_append` : nesting is decided piece by piece, if the pieces are balanced.
* `Value.Layout` : how the lexemes of a value are made up of layers and raw texts.
* `Value.layout_of_parse` : a text that is read as a value is laid out so, with raw texts that are
  balanced.
* `Declarations.bindText_nested_iff` : when the brackets of a text that is accepted match in kind.
-/

namespace TestSynth

/-! ### Brackets and their kinds -/

/-- The kinds of brackets. -/
inductive Bracket where
  | brace
  | paren
  | square
  deriving DecidableEq

namespace Token

variable {t : Token} {ts rest : List Token} {k : Bracket} {pending : List Bracket}

/-- The kind of bracket that a token opens. -/
def opens? : Token → Option Bracket
  | elementOpen | regionOpen | openBrace => some .brace
  | openParen => some .paren
  | openBracket => some .square
  | _ => none

/-- The kind of bracket that a token closes. -/
def closes? : Token → Option Bracket
  | closeBrace => some .brace
  | closeParen => some .paren
  | closeBracket => some .square
  | _ => none

/-- Each bracket that is opened is closed by one of its own kind, and nothing else is closed. -/
inductive Nested : List Token → Prop
  | nil : Nested []
  | plain {t : Token} {rest : List Token} (hopen : t.opens? = none) (hclose : t.closes? = none)
    (hrest : Nested rest) : Nested (t :: rest)
  | group {k : Bracket} {t t' : Token} {inner rest : List Token} (hopen : t.opens? = some k)
    (hclose : t'.closes? = some k) (hinner : Nested inner) (hrest : Nested rest) :
    Nested (t :: (inner ++ t' :: rest))

/-- The tokens close what they open and then the `pending` brackets, the innermost one first, each
by one of its own kind. -/
def closesAll : (pending : List Bracket) → List Token → Bool
  | pending, [] => pending.isEmpty
  | pending, t :: ts =>
    match t.opens?, t.closes? with
    | some k, _ => closesAll (k :: pending) ts
    | none, some k => pending.head? == some k && closesAll pending.tail ts
    | none, none => closesAll pending ts

/-! #### One token -/

theorem kind_cases (t : Token) :
    (∃ k, t.opens? = some k ∧ t.closes? = none) ∨ (∃ k, t.opens? = none ∧ t.closes? = some k) ∨
      t.opens? = none ∧ t.closes? = none := by
  cases t <;> simp [opens?, closes?]

theorem opens?_of_closes? (h : t.closes? = some k) : t.opens? = none := by
  cases t <;> first | rfl | cases h

theorem opensGroup_eq (t : Token) : t.opensGroup = t.opens?.isSome := by cases t <;> rfl

theorem closesGroup_eq (t : Token) : t.closesGroup = t.closes?.isSome := by cases t <;> rfl

theorem closesAll_opens (h : t.opens? = some k) :
    closesAll pending (t :: ts) = closesAll (k :: pending) ts := by
  rw [closesAll, h]

theorem closesAll_closes (hopen : t.opens? = none) (hclose : t.closes? = some k) (k' : Bracket) :
    closesAll (k' :: pending) (t :: ts) = (k' == k && closesAll pending ts) := by
  rw [closesAll, hopen, hclose]
  rfl

theorem closesAll_plain (hopen : t.opens? = none) (hclose : t.closes? = none) :
    closesAll pending (t :: ts) = closesAll pending ts := by
  rw [closesAll, hopen, hclose]

theorem isBalanced_opens (h : t.opens? = some k) (n : Nat) :
    isBalanced n (t :: ts) = isBalanced (n + 1) ts := by
  rw [isBalanced, opensGroup_eq, h]
  rfl

theorem isBalanced_closes (hopen : t.opens? = none) (hclose : t.closes? = some k) (n : Nat) :
    isBalanced n (t :: ts) = (0 < n && isBalanced (n - 1) ts) := by
  rw [isBalanced, opensGroup_eq, closesGroup_eq, hopen, hclose]
  rfl

theorem isBalanced_plain (hopen : t.opens? = none) (hclose : t.closes? = none) (n : Nat) :
    isBalanced n (t :: ts) = isBalanced n ts := by
  rw [isBalanced, opensGroup_eq, closesGroup_eq, hopen, hclose]
  rfl

/-! #### Pieces -/

theorem isBalanced_append {n : Nat} (h : isBalanced n ts = true) (n' : Nat) :
    isBalanced (n + n') (ts ++ rest) = isBalanced n' rest := by
  induction ts generalizing n with
  | nil =>
    obtain rfl : n = 0 := by simpa [isBalanced] using h
    rw [Nat.zero_add, List.nil_append]
  | cons t ts ih =>
    rw [List.cons_append]
    rcases t.kind_cases with ⟨k, hopen, -⟩ | ⟨k, hopen, hclose⟩ | ⟨hopen, hclose⟩
    · rw [isBalanced_opens hopen] at h ⊢
      rw [Nat.add_right_comm, ih h]
    · rw [isBalanced_closes hopen hclose, Bool.and_eq_true, decide_eq_true_eq] at h
      rw [isBalanced_closes hopen hclose, decide_eq_true (by omega), Bool.true_and,
        Nat.sub_add_comm h.1, ih h.2]
    · rw [isBalanced_plain hopen hclose] at h ⊢
      exact ih h

/-- **Nesting is decided piece by piece**: a piece that is balanced closes its own brackets and
leaves the others to the rest. -/
theorem closesAll_append (pending pending' : List Bracket)
    (h : isBalanced pending.length ts = true) :
    closesAll (pending ++ pending') (ts ++ rest) =
      (closesAll pending ts && closesAll pending' rest) := by
  induction ts generalizing pending with
  | nil =>
    obtain rfl : pending = [] := by simpa [isBalanced] using h
    rfl
  | cons t ts ih =>
    rw [List.cons_append]
    rcases t.kind_cases with ⟨k, hopen, -⟩ | ⟨k, hopen, hclose⟩ | ⟨hopen, hclose⟩
    · rw [isBalanced_opens hopen] at h
      rw [closesAll_opens hopen, closesAll_opens hopen]
      exact ih (k :: pending) h
    · rw [isBalanced_closes hopen hclose, Bool.and_eq_true, decide_eq_true_eq] at h
      -- a bracket is closed that was pending, because the piece is balanced
      obtain ⟨k', pending, rfl⟩ := List.exists_cons_of_length_pos h.1
      rw [List.cons_append, closesAll_closes hopen hclose, closesAll_closes hopen hclose,
        ih pending h.2, Bool.and_assoc]
    · rw [isBalanced_plain hopen hclose] at h
      rw [closesAll_plain hopen hclose, closesAll_plain hopen hclose, ih pending h]

/-! #### Nesting is decidable -/

theorem Nested.closesAll_append (h : Nested ts) (pending : List Bracket) (rest : List Token) :
    closesAll pending (ts ++ rest) = closesAll pending rest := by
  induction h generalizing pending rest with
  | nil => rfl
  | plain hopen hclose _ ih => rw [List.cons_append, closesAll_plain hopen hclose, ih]
  | @group k t t' inner _ hopen hclose _ _ ihinner ihrest =>
    rw [List.cons_append, closesAll_opens hopen, List.append_assoc, ihinner, List.cons_append,
      closesAll_closes (opens?_of_closes? hclose) hclose, beq_self_eq_true, Bool.true_and, ihrest]

/-- The tokens close their own brackets and the pending ones. -/
def Closes : (pending : List Bracket) → List Token → Prop
  | [], ts => Nested ts
  | k :: pending, ts => ∃ inner t rest, ts = inner ++ t :: rest ∧ t.closes? = some k ∧
    Nested inner ∧ Closes pending rest

theorem Closes.plain (hopen : t.opens? = none) (hclose : t.closes? = none)
    (h : Closes pending ts) : Closes pending (t :: ts) := by
  cases pending with
  | nil => exact .plain hopen hclose h
  | cons k pending =>
    obtain ⟨inner, t', rest, rfl, hk, hinner, hrest⟩ := h
    exact ⟨t :: inner, t', rest, rfl, hk, .plain hopen hclose hinner, hrest⟩

theorem Closes.opens (hopen : t.opens? = some k) (h : Closes (k :: pending) ts) :
    Closes pending (t :: ts) := by
  obtain ⟨inner, t', rest, rfl, hk, hinner, hrest⟩ := h
  cases pending with
  | nil => exact .group hopen hk hinner hrest
  | cons k' pending =>
    obtain ⟨inner', t'', rest, rfl, hk', hinner', hrest⟩ := hrest
    exact ⟨t :: (inner ++ t' :: inner'), t'', rest, by simp, hk', .group hopen hk hinner hinner',
      hrest⟩

theorem closes_of_closesAll (h : closesAll pending ts = true) : Closes pending ts := by
  induction ts generalizing pending with
  | nil =>
    obtain rfl : pending = [] := List.isEmpty_iff.1 h
    exact .nil
  | cons t ts ih =>
    rcases t.kind_cases with ⟨k, hopen, -⟩ | ⟨k, hopen, hclose⟩ | ⟨hopen, hclose⟩
    · rw [closesAll_opens hopen] at h
      exact .opens hopen (ih h)
    · cases pending with
      | nil =>
        rw [closesAll, hopen, hclose] at h
        cases h
      | cons k' pending =>
        rw [closesAll_closes hopen hclose, Bool.and_eq_true, beq_iff_eq] at h
        obtain ⟨rfl, h⟩ := h
        exact ⟨[], t, ts, rfl, hclose, .nil, ih h⟩
    · rw [closesAll_plain hopen hclose] at h
      exact .plain hopen hclose (ih h)

theorem nested_iff : Nested ts ↔ closesAll [] ts = true := by
  refine ⟨fun h => ?_, closes_of_closesAll⟩
  have hall := h.closesAll_append [] []
  rwa [List.append_nil] at hall

instance (ts : List Token) : Decidable (Nested ts) := decidable_of_iff _ nested_iff.symm

/-! #### Verdicts -/

/-- The tokens are balanced, and `nested` says whether their brackets match in kind. -/
structure Verdict (ts : List Token) (nested : Bool) : Prop where
  balanced : isBalanced 0 ts = true
  nested : closesAll [] ts = nested

namespace Verdict

variable {ts' inner : List Token} {b b' : Bool}

theorem nil : Verdict [] true := ⟨rfl, rfl⟩

theorem plain (t : Token) (hopen : t.opens? = none) (hclose : t.closes? = none) (h : Verdict ts b) :
    Verdict (t :: ts) b :=
  ⟨by rw [isBalanced_plain hopen hclose, h.balanced],
    by rw [closesAll_plain hopen hclose, h.nested]⟩

theorem append (h : Verdict ts b) (h' : Verdict ts' b') : Verdict (ts ++ ts') (b && b') :=
  ⟨(isBalanced_append h.balanced 0).trans h'.balanced,
    (Token.closesAll_append [] [] h.balanced).trans (by rw [h.nested, h'.nested])⟩

theorem group (t t' : Token) (hopen : t.opens? = some k) (hclose : t'.closes? = some k)
    (h : Verdict inner b) (h' : Verdict ts b') : Verdict (t :: (inner ++ t' :: ts)) (b && b') where
  balanced := by
    rw [isBalanced_opens hopen, Nat.add_comm 0 1, Nat.add_comm 1 0, isBalanced_append h.balanced,
      isBalanced_closes (opens?_of_closes? hclose) hclose]
    exact h'.balanced
  nested := by
    have hrest : closesAll [k] (t' :: ts) = b' := by
      rw [closesAll_closes (opens?_of_closes? hclose) hclose, beq_self_eq_true, Bool.true_and,
        h'.nested]
    rw [closesAll_opens hopen]
    exact (Token.closesAll_append [] [k] h.balanced).trans (by rw [h.nested, hrest])

end Verdict

end Token

/-! ### The layout of a value -/

namespace Value

/-- The tokens of some lexemes. -/
abbrev tokens (ls : List Lexeme) : List Token := ls.map Lexeme.token

/-- The tokens of some fields, each behind its dot. -/
def fieldTokens (fields : List String) : List Token := fields.flatMap fun f => [.dot, .word f]

/-- The lexemes of a value: its layers have their marks, and between them stand the raw texts. -/
inductive Layout : Value → List Lexeme → (raws : List (List Lexeme)) → Prop
  | atom (ls : List Lexeme) : Layout (.atom (rawText ls)) ls [ls]
  | reference (symbol : String) (ls : List Lexeme) : Layout (.reference symbol (rawText ls)) ls [ls]
  | element {base : Value} {index : Int} {fields : List String} {gap gap₁ gap₂ gap₃ : String}
    {start start₁ start₂ start₃ : Nat} {ls indexText typeText fs : List Lexeme}
    {raws : List (List Lexeme)} (hbase : Layout base ls raws)
    (hindex : Index.parse (rawText indexText) = .ok index)
    (hfields : tokens fs = fieldTokens fields) :
    Layout (.element base index (rawText typeText) fields)
      (⟨gap, .elementOpen, start⟩ :: (ls ++ ⟨gap₁, .comma, start₁⟩ :: (indexText ++
        ⟨gap₂, .comma, start₂⟩ :: (typeText ++ ⟨gap₃, .closeBrace, start₃⟩ :: fs))))
      (raws ++ [indexText, typeText])
  | region {inner : Value} {fields : List String} {gap gap₁ : String} {start start₁ : Nat}
    {ls fs : List Lexeme} {raws : List (List Lexeme)} (hinner : Layout inner ls raws)
    (hfields : tokens fs = fieldTokens fields) :
    Layout (.region inner fields)
      (⟨gap, .regionOpen, start⟩ :: (ls ++ ⟨gap₁, .closeBrace, start₁⟩ :: fs)) raws
  | definition {inner : Value} {name : String} {gap gap₁ gap₂ gap₃ : String}
    {start start₁ start₂ start₃ : Nat} {typeText ls : List Lexeme} {raws : List (List Lexeme)}
    (hinner : Layout inner ls raws) :
    Layout (.definition name (rawText typeText) inner (Lexeme.sourceText ls))
      (⟨gap, .register name, start⟩ :: ⟨gap₁, .openAngle, start₁⟩ :: (typeText ++
        ⟨gap₂, .comma, start₂⟩ :: (ls ++ [⟨gap₃, .closeAngle, start₃⟩])))
      (typeText :: raws)

/-- The raw texts are balanced, whatever the kinds of their brackets. -/
def Balanced (raws : List (List Lexeme)) : Prop :=
  ∀ raw ∈ raws, Token.isBalanced 0 (tokens raw) = true

variable {v : Value} {ls rest taken : List Lexeme} {raws : List (List Lexeme)}

theorem verdict_fieldTokens (fields : List String) : Token.Verdict (fieldTokens fields) true := by
  induction fields with
  | nil => exact .nil
  | cons f fields ih => exact .plain .dot rfl rfl (.plain (.word f) rfl rfl ih)

/-- **The layers match their own braces**, so the brackets of a value match in kind if they do in
its raw texts. -/
theorem Layout.verdict (h : Layout v ls raws) (hraws : Balanced raws) :
    Token.Verdict (tokens ls) (raws.all fun raw => Token.closesAll [] (tokens raw)) := by
  have hraw (raw : List Lexeme) (hmem : raw ∈ raws) :
      Token.Verdict (tokens raw) (Token.closesAll [] (tokens raw)) := ⟨hraws raw hmem, rfl⟩
  induction h with
  | atom ls | reference symbol ls => simpa using hraw ls List.mem_cons_self
  | @element base index fields _ _ _ _ _ _ _ _ ls indexText typeText fs raws _ _ hfields ih =>
    have hbase := ih (fun raw hmem => hraws raw (List.mem_append_left _ hmem))
      fun raw hmem => hraw raw (List.mem_append_left _ hmem)
    have hindex := hraw indexText (by simp)
    have htype := hraw typeText (by simp)
    have hfs : Token.Verdict (tokens fs) true := hfields ▸ verdict_fieldTokens fields
    have helement := Token.Verdict.group .elementOpen .closeBrace rfl rfl
      (hbase.append (.plain .comma rfl rfl (hindex.append (.plain .comma rfl rfl htype)))) hfs
    simpa [Bool.and_assoc] using helement
  | @region inner fields _ _ _ _ ls fs raws _ hfields ih =>
    have hfs : Token.Verdict (tokens fs) true := hfields ▸ verdict_fieldTokens fields
    have hregion := Token.Verdict.group .regionOpen .closeBrace rfl rfl (ih hraws hraw) hfs
    simpa using hregion
  | @definition inner name _ _ _ _ _ _ _ _ typeText ls raws _ ih =>
    have hinner := ih (fun raw hmem => hraws raw (List.mem_cons_of_mem _ hmem))
      fun raw hmem => hraw raw (List.mem_cons_of_mem _ hmem)
    have htype := hraw typeText (by simp)
    have hdefinition := Token.Verdict.plain (.register name) rfl rfl
      (.plain .openAngle rfl rfl (htype.append (.plain .comma rfl rfl
        (hinner.append (.plain .closeAngle rfl rfl .nil)))))
    simpa using hdefinition

/-! ### What is read is laid out -/

theorem expect_eq_ok {size opened : Nat} {opener : String} {token : Token} :
    expect size opener opened token ls = .ok rest ↔
      ∃ gap start, ls = ⟨gap, token, start⟩ :: rest := by
  cases ls with
  | nil => simp [expect]
  | cons l ls =>
    obtain ⟨gap, t, start⟩ := l
    rw [expect]
    split
    · next heq =>
      subst heq
      simp
    · next hne => simp [hne]

section RawText

variable {awaited : Awaited} {n angles : Nat} {t : Token} {ts : List Token}

theorem Awaited.endsAt_of_closes? {k : Bracket} (h : t.closes? = some k) :
    awaited.endsAt angles t = true := by
  cases t <;> first | rfl | cases h

/-- A token that does not end a raw text closes nothing from outside of it. -/
theorem isBalanced_cons (h : (n = 0 && awaited.endsAt angles t) = false) :
    Token.isBalanced n (t :: ts) = Token.isBalanced (t.nest n) ts := by
  rw [Token.nest, Token.opensGroup_eq, Token.closesGroup_eq]
  rcases t.kind_cases with ⟨k, hopen, -⟩ | ⟨k, hopen, hclose⟩ | ⟨hopen, hclose⟩
  · rw [Token.isBalanced_opens hopen, hopen]
    rfl
  · rw [Awaited.endsAt_of_closes? hclose, Bool.and_true, decide_eq_false_iff_not] at h
    rw [Token.isBalanced_closes hopen hclose, decide_eq_true (by omega), Bool.true_and, hopen,
      hclose]
    rfl
  · rw [Token.isBalanced_plain hopen hclose, hopen, hclose]
    rfl

theorem takeRaw_layout (h : takeRaw awaited n ls = some (taken, rest)) :
    ls = taken ++ rest ∧ Token.isBalanced n (tokens taken) = true := by
  induction ls generalizing n taken with
  | nil => cases h
  | cons l ls ih =>
    rw [takeRaw] at h
    split at h
    · next hends =>
      cases h
      rw [Bool.and_eq_true, decide_eq_true_eq] at hends
      exact ⟨rfl, by rw [hends.1]; rfl⟩
    · next hgo =>
      obtain ⟨⟨taken, rest⟩, hls, heq⟩ := Option.map_eq_some_iff.1 h
      cases heq
      obtain ⟨rfl, hbalanced⟩ := ih hls
      exact ⟨rfl, (isBalanced_cons (Bool.eq_false_iff.2 hgo)).trans hbalanced⟩

theorem takeAtom_layout {st st' : AtomState} (h : takeAtom awaited st ls = (taken, st', rest)) :
    ls = taken ++ rest ∧ Token.isBalanced st.nesting (tokens taken) = (st'.nesting == 0) := by
  induction ls generalizing st taken with
  | nil =>
    cases h
    exact ⟨rfl, rfl⟩
  | cons l ls ih =>
    rw [takeAtom] at h
    split at h
    · cases h
      exact ⟨rfl, rfl⟩
    · next hgo =>
      obtain ⟨taken', st'', rest', htail⟩ :
          ∃ taken' st'' rest', takeAtom awaited (st.push l.token) ls = (taken', st'', rest') :=
        ⟨_, _, _, rfl⟩
      rw [htail] at h
      cases h
      obtain ⟨rfl, hbalanced⟩ := ih htail
      exact ⟨rfl, (isBalanced_cons (Bool.eq_false_iff.2 hgo)).trans hbalanced⟩

theorem raw_layout {opener text : String} {opened : Nat}
    (h : raw opener opened awaited ls = .ok (text, rest)) :
    ∃ taken, ls = taken ++ rest ∧ text = rawText taken ∧
      Token.isBalanced 0 (tokens taken) = true := by
  rw [raw] at h
  split at h
  · next taken _ htake =>
    cases h
    obtain ⟨heq, hbalanced⟩ := takeRaw_layout htake
    exact ⟨taken, heq, rfl, hbalanced⟩
  · cases h

theorem atomValue_layout {size : Nat} (h : atomValue size awaited ls = .ok (v, rest)) :
    ∃ taken, ls = taken ++ rest ∧ Token.isBalanced 0 (tokens taken) = true ∧
      Layout v taken [taken] := by
  obtain ⟨taken, st, rest', htake⟩ :
      ∃ taken st rest', takeAtom awaited {} ls = (taken, st, rest') := ⟨_, _, _, rfl⟩
  obtain ⟨rfl, hbalanced⟩ := takeAtom_layout htake
  simp only [atomValue, htake] at h
  split at h
  · cases h
  · next hnesting =>
    split at h
    · cases h
    · cases h
      refine ⟨taken, rfl, hbalanced.trans ?_, ?_⟩
      · simpa using hnesting
      · split
        · exact .reference _ taken
        · exact .reference _ taken
        · exact .reference _ taken
        · exact .atom taken

end RawText

theorem fieldNames_layout {size : Nat} {fields : List String}
    (h : fieldNames size ls = .ok (fields, rest)) :
    ∃ fs, ls = fs ++ rest ∧ tokens fs = fieldTokens fields := by
  fun_induction fieldNames size ls generalizing fields rest with
  | case1 gap start gap' name start' ls ih =>
    obtain ⟨⟨names, rest'⟩, hnames, heq⟩ := bind_ok h
    cases heq
    obtain ⟨fs, rfl, hfs⟩ := ih hnames
    exact ⟨_ :: _ :: fs, rfl, congrArg (fun ts => Token.dot :: Token.word name :: ts) hfs⟩
  | case2 => cases h
  | case3 ls =>
    cases h
    exact ⟨[], rfl, rfl⟩

theorem elementTail_layout {size opened : Nat} {index : Int} {type : String}
    (h : elementTail size opened ls = .ok (index, type, rest)) :
    ∃ gap₁ start₁ indexText gap₂ start₂ typeText gap₃ start₃,
      ls = ⟨gap₁, .comma, start₁⟩ :: (indexText ++ ⟨gap₂, .comma, start₂⟩ :: (typeText ++
        ⟨gap₃, .closeBrace, start₃⟩ :: rest)) ∧
      Index.parse (rawText indexText) = .ok index ∧ type = rawText typeText ∧
      Balanced [indexText, typeText] := by
  obtain ⟨ls₁, hcomma₁, h⟩ := bind_ok h
  obtain ⟨⟨index', ls₂⟩, hindex, h⟩ := bind_ok h
  obtain ⟨ls₃, hcomma₂, h⟩ := bind_ok h
  obtain ⟨⟨type', ls₄⟩, htype, h⟩ := bind_ok h
  obtain ⟨ls₅, hclose, h⟩ := bind_ok h
  obtain ⟨i, hparse, h⟩ := bind_ok h
  cases h
  obtain ⟨gap₁, start₁, rfl⟩ := expect_eq_ok.1 hcomma₁
  obtain ⟨indexText, rfl, rfl, hindexText⟩ := raw_layout hindex
  obtain ⟨gap₂, start₂, rfl⟩ := expect_eq_ok.1 hcomma₂
  obtain ⟨typeText, rfl, rfl, htypeText⟩ := raw_layout htype
  obtain ⟨gap₃, start₃, rfl⟩ := expect_eq_ok.1 hclose
  refine ⟨gap₁, start₁, indexText, gap₂, start₂, typeText, gap₃, start₃, rfl, hparse, rfl, ?_⟩
  simpa [Balanced] using ⟨hindexText, htypeText⟩

/-- **What is read as a value is laid out as one**, and its raw texts are balanced. -/
theorem layout_of_read {size limit depth : Nat} {awaited : Awaited}
    (h : read size limit depth awaited ls = .ok (v, rest)) :
    ∃ taken raws, ls = taken ++ rest ∧ Layout v taken raws ∧ Balanced raws := by
  induction depth generalizing awaited ls v rest with
  | zero => cases h
  | succ depth ih =>
    unfold read at h
    split at h
    · cases h
    · next gap start _ =>
      obtain ⟨base, ls₁, index, type, ls₂, fields, hbase, htail, hfields, rfl⟩ :=
        elementValue_eq_ok.1 h
      obtain ⟨ls, raws, rfl, hlayout, hraws⟩ := ih hbase
      obtain ⟨gap₁, start₁, indexText, gap₂, start₂, typeText, gap₃, start₃, rfl, hindex, rfl,
        htexts⟩ := elementTail_layout htail
      obtain ⟨fs, rfl, hfs⟩ := fieldNames_layout hfields
      have helement : Layout (.element base index (rawText typeText) fields)
          (⟨gap, .elementOpen, start⟩ :: (ls ++ ⟨gap₁, .comma, start₁⟩ :: (indexText ++
            ⟨gap₂, .comma, start₂⟩ :: (typeText ++ ⟨gap₃, .closeBrace, start₃⟩ :: fs)))) _ :=
        .element hlayout hindex hfs
      exact ⟨_, _, by simp, helement, List.forall_mem_append.2 ⟨hraws, htexts⟩⟩
    · next gap start _ =>
      obtain ⟨w, ls₁, ls₂, fields, hw, hclose, hfields, rfl⟩ := regionValue_eq_ok.1 h
      obtain ⟨ls, raws, rfl, hlayout, hraws⟩ := ih hw
      obtain ⟨gap₁, start₁, rfl⟩ := expect_eq_ok.1 hclose
      obtain ⟨fs, rfl, hfs⟩ := fieldNames_layout hfields
      have hregion : Layout (.region w fields)
          (⟨gap, .regionOpen, start⟩ :: (ls ++ ⟨gap₁, .closeBrace, start₁⟩ :: fs)) raws :=
        .region hlayout hfs
      exact ⟨_, _, by simp, hregion, hraws⟩
    · next gap name start gap₁ start₁ _ =>
      obtain ⟨type, ls₁, ls₂, w, ls₃, htype, hcomma, hw, hclose, rfl⟩ := definitionValue_eq_ok.1 h
      obtain ⟨typeText, rfl, rfl, htypeText⟩ := raw_layout htype
      obtain ⟨gap₂, start₂, rfl⟩ := expect_eq_ok.1 hcomma
      obtain ⟨ls, raws, rfl, hlayout, hraws⟩ := ih hw
      obtain ⟨gap₃, start₃, rfl⟩ := expect_eq_ok.1 hclose
      have hsource : (ls ++ ⟨gap₃, .closeAngle, start₃⟩ :: rest).take
          ((ls ++ ⟨gap₃, .closeAngle, start₃⟩ :: rest).length -
            (⟨gap₃, .closeAngle, start₃⟩ :: rest : List Lexeme).length) = ls := by
        simp
      rw [hsource]
      have hdefinition : Layout (.definition name (rawText typeText) w (Lexeme.sourceText ls))
          (⟨gap, .register name, start⟩ :: ⟨gap₁, .openAngle, start₁⟩ :: (typeText ++
            ⟨gap₂, .comma, start₂⟩ :: (ls ++ [⟨gap₃, .closeAngle, start₃⟩]))) _ :=
        .definition hlayout
      exact ⟨_, _, by simp, hdefinition, List.forall_mem_cons.2 ⟨htypeText, hraws⟩⟩
    · obtain ⟨taken, heq, hbalanced, hlayout⟩ := atomValue_layout (mapError_eq_ok.1 h)
      exact ⟨taken, [taken], heq, hlayout, List.forall_mem_singleton.2 hbalanced⟩

theorem layout_of_parse {limit : Nat} {source : String} (h : parse limit source = .ok v) :
    ∃ raws, Layout v (Lexeme.ofText source) raws ∧ Balanced raws := by
  obtain ⟨⟨w, rest⟩, hread, hrest⟩ := bind_ok h
  obtain ⟨taken, raws, heq, hlayout, hraws⟩ := layout_of_read hread
  cases rest with
  | nil =>
    cases hrest
    rw [heq, List.append_nil]
    exact ⟨raws, hlayout, hraws⟩
  | cons l rest => cases hrest

end Value

/-! ### Texts that are accepted -/

namespace Declarations

variable {d : Declarations} {limit : Nat} {source : String} {t t' : Tables} {b : Bound}

theorem parse_of_bindText (h : d.bindText limit source t = (.ok b, t')) :
    ∃ v, Value.parse limit source = .ok v := by
  cases hparse : Value.parse limit source with
  | ok v => exact ⟨v, rfl⟩
  | error failure =>
    obtain ⟨e, u, herror⟩ := d.bindReading_error (d.resolve limit t.parameters.keys) failure t
    rw [bindText, hparse, herror] at h
    cases h

/-- **A text that is accepted is balanced**: no group is closed that was not opened, and all groups
are closed, in the text and in each of its raw texts.  Its brackets match in kind if and only if
those of its raw texts do. -/
theorem bindText_nested_iff (h : d.bindText limit source t = (.ok b, t')) :
    Token.isBalanced 0 (Token.ofText source) = true ∧
    ∃ v raws, Value.parse limit source = .ok v ∧ Value.Layout v (Lexeme.ofText source) raws ∧
      Value.Balanced raws ∧
      (Token.Nested (Token.ofText source) ↔ ∀ raw ∈ raws, Token.Nested (Value.tokens raw)) := by
  obtain ⟨v, hparse⟩ := parse_of_bindText h
  obtain ⟨raws, hlayout, hraws⟩ := Value.layout_of_parse hparse
  obtain ⟨hbalanced, hnested⟩ := hlayout.verdict hraws
  refine ⟨hbalanced, v, raws, hparse, hlayout, hraws, ?_⟩
  simp only [Token.nested_iff]
  rw [Token.ofText, hnested, List.all_eq_true]

/-- An element with brackets in all its raw texts. -/
def bracketedElement : String := "Element\x7bconj_$1\x7bint, LC1\x7d,2 S64b,int (*)[3]\x7d.next"

theorem bindText_bracketedElement :
    ∃ b t', bindText {} 8 bracketedElement {} = (.ok b, t') ∧
      Token.isBalanced 0 (Token.ofText bracketedElement) = true ∧
      ∃ v raws, Value.parse 8 bracketedElement = .ok v ∧
        Value.Layout v (Lexeme.ofText bracketedElement) raws ∧ Value.Balanced raws ∧
        (Token.Nested (Token.ofText bracketedElement) ↔
          ∀ raw ∈ raws, Token.Nested (Value.tokens raw)) := by
  have hfst : (bindText {} 8 bracketedElement {}).1 =
      .ok ⟨.field (.index (.ident "conj_$1\x7bint, LC1\x7d") 2) "next" true, none, none⟩ := by
    decide +kernel
  exact ⟨_, _, Prod.ext hfst rfl, bindText_nested_iff (Prod.ext hfst rfl)⟩

/-- A conjured symbol whose payload is opened by a brace and closed by a parenthesis. -/
def mixedPayload : String := "conj_$1\x7bint, LC1)"

/-- The brackets of a text that is accepted need not match in kind. -/
theorem not_nested_mixedPayload :
    ¬∀ (d : Declarations) (limit : Nat) (source : String) (t t' : Tables) (b : Bound),
      d.bindText limit source t = (.ok b, t') → Token.Nested (Token.ofText source) := by
  intro hclaim
  have hfst : (bindText {} Value.defaultLimit mixedPayload {}).1 =
      .ok ⟨.ident mixedPayload, some "conj_$1", none⟩ := by decide +kernel
  have hnot : ¬Token.Nested (Token.ofText mixedPayload) := by decide +kernel
  exact hnot (hclaim {} Value.defaultLimit mixedPayload {} _ _ (Prod.ext hfst rfl))

end Declarations

end TestSynth
