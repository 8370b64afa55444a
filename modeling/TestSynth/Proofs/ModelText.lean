import TestSynth.Proofs.Duplicates
import TestSynth.Proofs.SpellingParts

/-!
# Writing models

A model may be written in many ways: its lines in any order, other lines between them, hexadecimal
literals with either mark.  All of them are read as the same table, so cases that differ in nothing
else are one case to the registry.

* `Table.ofList_of_perm` : a table is made of its entries, in any order.
* `Model.Written`, `Model.Line`, `Model.Writes` : what may be written for a literal, for an entry
  and for a table.
* `Model.line?_of_line` : a line is read as what it says.
* `Model.parse_of_writes` : so is a model.
* `TestFunction.dropped_of_digest` : a request is dropped if an earlier one has its digest.
* `Model.parse_writes` : both together.
-/

namespace TestSynth

namespace Text

theorem pieces_intercalate {m : Char} {lines : List (List Char)} (hne : lines ≠ [])
    (h : ∀ line ∈ lines, m ∉ line) : pieces (· == m) ([m].intercalate lines) = lines := by
  have hone (line : List Char) (hline : m ∉ line) : pieces (· == m) line = [line] :=
    pieces_of_not_sep fun c hc => by
      rw [beq_eq_false_iff_ne]
      rintro rfl
      exact hline hc
  induction lines with
  | nil => exact absurd rfl hne
  | cons line lines ih =>
    have hline := hone line (h line List.mem_cons_self)
    cases lines with
    | nil => simpa [List.intercalate] using hline
    | cons line' lines =>
      rw [List.intercalate_cons_cons, List.append_assoc, List.singleton_append,
        @pieces_append_sep (· == m) _ (beq_self_eq_true m), hline,
        ih (List.cons_ne_nil _ _) fun l hl => h l (List.mem_cons_of_mem line hl),
        List.singleton_append]

theorem trim_append_blank {s : List Char} (h : trim s = s) {c : Char} (hc : isBlank c = true) :
    trim (s ++ [c]) = s := by
  obtain ⟨hstart, hend⟩ := trim_eq_self_iff.1 h
  have hdrop : (s ++ [c]).reverse.dropWhile isBlank = s.reverse := by
    rw [List.reverse_append, List.reverse_singleton]
    exact dropWhile_blanks_append (by simpa using hc) hend
  cases s with
  | nil => simp [trim, trimStart, trimEnd, List.dropWhile_cons_of_pos hc]
  | cons d s =>
    rw [trim, trimStart, dropWhile_isBlank_eq_self_iff.2 (hstart.append_of_ne_nil (by simp) _),
      trimEnd, hdrop, List.reverse_reverse]

theorem trim_cons_blank {s : List Char} (h : trim s = s) {c : Char} (hc : isBlank c = true) :
    trim (c :: s) = s := by
  conv_rhs => rw [← h]
  rw [trim, trimStart, List.dropWhile_cons_of_pos hc, trim, trimStart]

end Text

namespace Table

variable {α : Type}

/-- **A table is made of its entries**, in any order. -/
theorem ofList_of_perm {m : Table α} {entries : List (String × α)} (h : entries.Perm m.toList) :
    Std.ExtTreeMap.ofList entries = m := by
  have hmem {entry : String × α} : entry ∈ entries ↔ m[entry.1]? = some entry.2 := by
    rw [h.mem_iff, Std.ExtTreeMap.mem_toList_iff_getElem?_eq_some]
  refine Std.ExtTreeMap.ext_getElem? fun {name} => ?_
  cases hvalue : m[name]? with
  | some value =>
    have hdistinct : entries.Pairwise fun a b => ¬compare a.1 b.1 = .eq :=
      m.distinct_keys_toList.perm h.symm fun hne heq => hne (Std.OrientedCmp.eq_symm heq)
    exact Std.ExtTreeMap.getElem?_ofList_of_mem (Std.compare_eq_iff_eq.2 rfl) hdistinct
      (hmem.2 hvalue : (name, value) ∈ entries)
  | none =>
    refine Std.ExtTreeMap.getElem?_ofList_of_contains_eq_false ?_
    rw [← Bool.not_eq_true, List.contains_iff_mem, List.mem_map]
    rintro ⟨entry, hentry, rfl⟩
    rw [hmem.1 hentry] at hvalue
    cases hvalue

end Table

namespace Model

variable {s w : List Char}

/-! ### Literals -/

/-- Some of the marks `0x` of a text are written `#x`. -/
inductive Written : (text written : List Char) → Prop
  | nil : Written [] []
  | char {s w : List Char} (c : Char) (h : Written s w) : Written (c :: s) (c :: w)
  | mark {s w : List Char} (h : Written s w) : Written ('0' :: 'x' :: s) ('#' :: 'x' :: w)

/-- What is written with other marks is respelled, if there were none of them before. -/
theorem Written.respellHex_eq (h : Written s w) (hs : ¬['#', 'x'] <:+: s) : respellHex w = s := by
  induction h with
  | nil => rfl
  | @char s w c h ih =>
    rw [respellHex, ih fun hmark => hs (hmark.trans (List.suffix_cons c s).isInfix)]
    -- a mark that begins here was one before
    rintro w' rfl rfl
    cases h with
    | @char s _ _ h => exact hs ⟨[], s, rfl⟩
  | @mark s w h ih =>
    rw [respellHex, ih fun hmark => hs (hmark.trans ⟨['0', 'x'], [], by simp⟩)]

theorem Written.mem (h : Written s w) {c : Char} (hc : c ∈ w) : c ∈ s ∨ c = '#' := by
  induction h with
  | nil => cases hc
  | char d h ih =>
    rcases List.mem_cons.1 hc with rfl | hc
    · exact .inl List.mem_cons_self
    · exact (ih hc).imp_left (List.mem_cons_of_mem d)
  | mark h ih =>
    rcases List.mem_cons.1 hc with rfl | hc
    · exact .inr rfl
    rcases List.mem_cons.1 hc with rfl | hc
    · exact .inl (by simp)
    · exact (ih hc).imp_left fun h => by simp [h]

theorem respellHex_eq_self (hs : ¬['#', 'x'] <:+: s) : respellHex s = s := by
  have hsame : Written s s := by
    clear hs
    induction s with
    | nil => exact .nil
    | cons c s ih => exact .char c ih
  exact hsame.respellHex_eq hs

/-! ### Lines -/

/-- What a text begins with when it is respelled, it began with before, unless it is a mark. -/
theorem head?_of_respellHex {c : Char} (h : (respellHex s).head? = some c) (hc : c ≠ '0') :
    s.head? = some c := by
  fun_cases respellHex s with
  | case1 s =>
    rw [respellHex] at h
    cases h
    exact absurd rfl hc
  | case2 d s hnot =>
    rw [respellHex.eq_2 _ _ hnot] at h
    exact h
  | case3 => exact h

/-- Respelling makes no arrow. -/
theorem infix_of_infix_respellHex (h : ['-', '>'] <:+: respellHex s) : ['-', '>'] <:+: s := by
  fun_induction respellHex s with
  | case1 s ih =>
    rcases List.infix_cons_iff.1 h with h | h
    · simp at h
    rcases List.infix_cons_iff.1 h with h | h
    · simp at h
    · exact (ih h).trans ⟨['#', 'x'], [], by simp⟩
  | case2 c s hnot ih =>
    rcases List.infix_cons_iff.1 h with h | h
    · obtain ⟨rest, h⟩ := h
      obtain ⟨rfl, htail⟩ := List.cons.inj h
      have hhead : (respellHex s).head? = some '>' := by rw [← htail]; rfl
      obtain ⟨s', rfl⟩ := List.head?_eq_some_iff.1 (head?_of_respellHex hhead (by decide))
      exact ⟨[], s', rfl⟩
    · exact (ih h).trans (List.suffix_cons c s).isInfix
  | case3 => exact h

theorem splitOnce_arrow (hs : ¬['-', '>'] <:+: s) (rest : List Char) :
    Text.splitOnce ['-', '>'] (s ++ ' ' :: '-' :: '>' :: rest) = some (s ++ [' '], rest) := by
  induction s with
  | nil => rfl
  | cons c s ih =>
    have hnone : Text.after? ['-', '>'] (c :: (s ++ ' ' :: '-' :: '>' :: rest)) = none := by
      rw [← Option.not_isSome_iff_eq_none, Option.isSome_iff_exists]
      rintro ⟨behind, hafter⟩
      obtain ⟨rfl, heq⟩ := List.cons.inj (Text.after?_eq_some.1 hafter)
      -- the arrow would stand in the text, which does not end at a dash
      cases s with
      | nil => cases heq
      | cons d s =>
        obtain ⟨rfl, -⟩ := List.cons.inj heq
        exact hs ⟨[], s, rfl⟩
    rw [List.cons_append, Text.splitOnce, hnone]
    simp only [ih fun h => hs (h.trans (List.suffix_cons c s).isInfix), Option.map_some,
      List.cons_append]

theorem mem_of_mem_respellHex {c : Char} (h : c ∈ respellHex s) : c ∈ s ∨ c = '0' := by
  fun_induction respellHex s with
  | case1 s ih =>
    rcases List.mem_cons.1 h with rfl | h
    · exact .inr rfl
    rcases List.mem_cons.1 h with rfl | h
    · exact .inl (by simp)
    · exact (ih h).imp_left fun h => by simp [h]
  | case2 d s hnot ih =>
    rcases List.mem_cons.1 h with rfl | h
    · exact .inl List.mem_cons_self
    · exact (ih h).imp_left (List.mem_cons_of_mem d)
  | case3 => exact .inl h

/-- A line of a model, and the entry that it says. -/
inductive Line : Option (String × String) → List Char → Prop
  | entry {symbol literal : String} {w : List Char} (h : Written literal.toList w) :
    Line (some (symbol, literal)) (symbol.toList ++ ' ' :: '-' :: '>' :: ' ' :: w)
  | other {s : List Char} (harrow : ¬['-', '>'] <:+: s) (hline : '\n' ∉ s) : Line none s

/-- A text that a line can hold. -/
structure Plain (s : String) : Prop where
  trimmed : Text.trimmed s = s
  oneLine : '\n' ∉ s.toList
  unmarked : ¬['#', 'x'] <:+: s.toList

theorem Plain.trim_toList {s : String} (h : Plain s) : Text.trim s.toList = s.toList := by
  have htrimmed := congrArg String.toList h.trimmed
  rwa [Text.trimmed, String.toList_ofList] at htrimmed

/-- An entry that a line can say. -/
structure Sayable (entry : String × String) : Prop where
  symbol : Plain entry.1
  literal : Plain entry.2
  noArrow : ¬['-', '>'] <:+: entry.1.toList

variable {said : Option (String × String)}

theorem Line.not_mem_newline (h : Line said s) (hsaid : ∀ entry ∈ said, Sayable entry) :
    '\n' ∉ s := by
  cases h with
  | @entry symbol literal w hw =>
    have hentry := hsaid _ rfl
    have hliteral : '\n' ∉ w := fun hmem => (hw.mem hmem).elim hentry.literal.oneLine nofun
    simpa using ⟨hentry.symbol.oneLine, hliteral⟩
  | other _ hline => exact hline

/-- **A line is read as what it says.** -/
theorem line?_of_line (h : Line said s) (hsaid : ∀ entry ∈ said, Sayable entry) :
    line? (respellHex s) = said := by
  have hmark : "->".toList = ['-', '>'] := by decide
  rw [line?, hmark]
  cases h with
  | @entry symbol literal w hw =>
    obtain ⟨hsymbol, hliteral, harrow⟩ := hsaid _ rfl
    have hseam : respellHex (' ' :: '-' :: '>' :: ' ' :: w) =
        ' ' :: '-' :: '>' :: ' ' :: literal.toList := by
      rw [← hw.respellHex_eq hliteral.unmarked]
      rfl
    have hsymbol' : Text.trim (symbol.toList ++ [' ']) = symbol.toList :=
      Text.trim_append_blank hsymbol.trim_toList (by decide)
    have hliteral' : Text.trim (' ' :: literal.toList) = literal.toList :=
      Text.trim_cons_blank hliteral.trim_toList (by decide)
    rw [respellHex_append (by simp), respellHex_eq_self hsymbol.unmarked, hseam,
      splitOnce_arrow harrow, Option.map_some]
    simp only [hsymbol', hliteral', String.ofList_toList]
  | other harrow _ =>
    rw [Text.splitOnce_eq_none fun h => harrow (infix_of_infix_respellHex h)]
    rfl

/-! ### Models -/

/-- The text writes the entries down: there is one line for each of them, in any order, and there
may be other lines between them. -/
def Writes (entries : Table String) (model : String) : Prop :=
  ∃ lines : List (Option (String × String) × List Char), (∀ l ∈ lines, Line l.1 l.2) ∧
    (lines.filterMap Prod.fst).Perm entries.toList ∧
      model.toList = ['\n'].intercalate (lines.map Prod.snd)

/-- The entries can be written down. -/
def Writable (entries : Table String) : Prop := ∀ entry ∈ entries.toList, Sayable entry

theorem respellHex_intercalate (lines : List (List Char)) :
    respellHex (['\n'].intercalate lines) = ['\n'].intercalate (lines.map respellHex) := by
  induction lines with
  | nil => rfl
  | cons line lines ih =>
    cases lines with
    | nil => simp [List.intercalate]
    | cons line' lines =>
      have hnewline (s : List Char) : respellHex ('\n' :: s) = '\n' :: respellHex s := rfl
      have hmap : (line :: line' :: lines).map respellHex =
          respellHex line :: respellHex line' :: lines.map respellHex := rfl
      rw [List.intercalate_cons_cons, List.append_assoc, List.singleton_append,
        respellHex_append (by simp), hnewline, ih, hmap, List.intercalate_cons_cons,
        List.append_assoc, List.singleton_append]
      rfl

variable {entries : Table String} {model model' : String}

/-- **A model is read as what its lines say.** -/
theorem parse_of_writes (hentries : Writable entries) (h : Writes entries model) :
    parse model = entries := by
  obtain ⟨lines, hlines, hperm, hmodel⟩ := h
  have hsaid : ∀ l ∈ lines, ∀ entry ∈ l.1, Sayable entry := fun l hl entry hentry =>
    hentries entry (hperm.mem_iff.1 (List.mem_filterMap.2 ⟨l, hl, hentry⟩))
  have hread : (lines.map Prod.snd).filterMap (line? ∘ respellHex) = lines.filterMap Prod.fst := by
    rw [List.filterMap_map]
    exact List.filterMap_congr fun l hl => line?_of_line (hlines l hl) (hsaid l hl)
  have hclean : ∀ line ∈ (lines.map Prod.snd).map respellHex, '\n' ∉ line := by
    simp only [List.forall_mem_map]
    intro l hl hmem
    rcases mem_of_mem_respellHex hmem with hmem | hzero
    · exact (hlines l hl).not_mem_newline (hsaid l hl) hmem
    · cases hzero
  have hpieces : (Text.pieces (· == '\n') (respellHex model.toList)).filterMap line? =
      lines.filterMap Prod.fst := by
    rw [hmodel, respellHex_intercalate, ← hread, ← List.filterMap_map]
    -- a text without lines is one empty line, which says nothing
    rcases eq_or_ne lines [] with rfl | hne
    · rfl
    · rw [Text.pieces_intercalate (by simpa using hne) hclean]
  rw [parse, hpieces, Table.ofList_of_perm hperm]

end Model

/-! ### Requests with the same model -/

namespace TestFunction

variable {d : Declarations} {o : Options}

/-- A request is dropped, whatever the registry knew, if an earlier one has its digest. -/
theorem dropped_of_digest (qs : List Request) (r : Registry) {i j : Nat} (hij : i < j)
    (hj : j < qs.length) (h : (qs[i].call d).digest = (qs[j].call d).digest) :
    (outcomes d o qs r)[j]? = some (.ok none) := by
  have hj' : j < (qs.map fun q => (q.call d).digest).length := by rwa [List.length_map]
  have hanswer := Registry.isSome_getElem_answers r _ hj' (by rwa [Registry.length_answers])
  rw [getElem?_outcomes, List.getElem?_eq_getElem (by rwa [Registry.length_answers]),
    Option.some.injEq, ← Option.not_isSome_iff_eq_none, hanswer]
  rintro ⟨-, hfirst⟩
  exact hfirst i hij (by simpa using h)

end TestFunction

namespace Case

variable {d : Declarations} {c c' : Case}

/-- Cases whose models say the same of the symbols that they keep have the same literals. -/
theorem values_intake (hmodel : Model.parse c.model = Model.parse c'.model)
    (hkept : ∀ name ∈ Model.parse c.model, c.fate d name = .kept ↔ c'.fate d name = .kept) :
    (c.intake d).values = (c'.intake d).values := by
  refine Std.ExtTreeMap.ext_getElem? fun {name} => ?_
  simp only [intake, ← hmodel, Std.ExtTreeMap.getElem?_filter']
  cases hvalue : (Model.parse c.model)[name]? with
  | none => rfl
  | some value =>
    have hiff := hkept name (Table.mem_of_getElem? hvalue)
    simp only [Option.filter_some, beq_iff_eq, hiff]

end Case

namespace Model

open TestSynth.TestFunction (outcomes dropped_of_digest numberFunction)

/-- **A model is read as what its lines say**, in whatever order they stand.  So two cases of one
function whose models say the same, and that keep the same symbols of it, have the same digest, and
the later one is dropped in every run. -/
theorem parse_writes {entries : Table String} (hentries : Writable entries) {model : String}
    (hmodel : Writes entries model) :
    parse model = entries ∧
      ∀ (d : Declarations) (o : Options) (function : String) (c c' : Case), c.model = model →
        Writes entries c'.model →
        (∀ name ∈ entries, c.fate d name = .kept ↔ c'.fate d name = .kept) →
        caseDigest function (c.intake d).values = caseDigest function (c'.intake d).values ∧
          ∀ (qs : List TestFunction.Request) (r : Registry) (i j : Nat) (hij : i < j)
              (hj : j < qs.length),
            qs[i] = ⟨function, c⟩ → qs[j] = ⟨function, c'⟩ →
              (outcomes d o qs r)[j]? = some (.ok none) := by
  have hparse := parse_of_writes hentries hmodel
  refine ⟨hparse, fun d o function c c' hc hc' hkept => ?_⟩
  subst hc
  have hvalues : (c.intake d).values = (c'.intake d).values :=
    Case.values_intake (hparse.trans (parse_of_writes hentries hc').symm)
      fun name hname => hkept name (hparse ▸ hname)
  refine ⟨by rw [hvalues], fun qs r i j hij hj hi hj' => dropped_of_digest qs r hij hj ?_⟩
  rw [hi, hj']
  exact congrArg (caseDigest function) hvalues

/-- Three literals: one in hexadecimal, one with an arrow and a mark, and an empty one. -/
def threeLiterals : Table String := .ofList [("reg_$0", "0x1A"), ("reg_$1", "a -> 0x"), ("y", "")]

/-- The literals behind a line that is none of them. -/
def firstModel : String := "model #x\nreg_$0 -> #x1A\nreg_$1 -> a -> 0x\ny -> "

/-- The literals in another order and with the other marks. -/
def secondModel : String := "y -> \nreg_$1 -> a -> #x\n\nreg_$0 -> 0x1A\n"

theorem writable_threeLiterals : Writable threeLiterals := by
  have hentries : threeLiterals.toList =
      [("reg_$0", "0x1A"), ("reg_$1", "a -> 0x"), ("y", "")] := by
    decide +kernel
  have hplain (s : String)
      (h : (Text.trimmed s = s ∧ '\n' ∉ s.toList) ∧ ¬['#', 'x'] <:+: s.toList) : Plain s :=
    ⟨h.1.1, h.1.2, h.2⟩
  intro entry hentry
  rw [hentries] at hentry
  simp only [List.mem_cons, List.not_mem_nil, or_false] at hentry
  rcases hentry with rfl | rfl | rfl <;>
    exact ⟨hplain _ (by decide +kernel), hplain _ (by decide +kernel), by decide +kernel⟩

theorem Written.rfl (s : List Char) : Written s s := by
  induction s with
  | nil => exact .nil
  | cons c s ih => exact .char c ih

theorem writes_firstModel : Writes threeLiterals firstModel := by
  have hmark : Written "0x1A".toList "#x1A".toList := .mark (.char '1' (.char 'A' .nil))
  refine ⟨[(none, "model #x".toList),
    (some ("reg_$0", "0x1A"), "reg_$0".toList ++ ' ' :: '-' :: '>' :: ' ' :: "#x1A".toList),
    (some ("reg_$1", "a -> 0x"), "reg_$1".toList ++ ' ' :: '-' :: '>' :: ' ' :: "a -> 0x".toList),
    (some ("y", ""), "y".toList ++ ' ' :: '-' :: '>' :: ' ' :: "".toList)],
    ?_, by decide +kernel, by decide +kernel⟩
  simp only [List.forall_mem_cons, List.not_mem_nil, false_implies, implies_true, and_true]
  exact ⟨.other (by decide +kernel) (by decide +kernel), .entry hmark, .entry (.rfl _),
    .entry (.rfl _)⟩

theorem writes_secondModel : Writes threeLiterals secondModel := by
  have hmark : Written "a -> 0x".toList "a -> #x".toList :=
    .char 'a' (.char ' ' (.char '-' (.char '>' (.char ' ' (.mark .nil)))))
  refine ⟨[(some ("y", ""), "y".toList ++ ' ' :: '-' :: '>' :: ' ' :: "".toList),
    (some ("reg_$1", "a -> 0x"), "reg_$1".toList ++ ' ' :: '-' :: '>' :: ' ' :: "a -> #x".toList),
    (none, []),
    (some ("reg_$0", "0x1A"), "reg_$0".toList ++ ' ' :: '-' :: '>' :: ' ' :: "0x1A".toList),
    (none, [])],
    ?_, by decide +kernel, by decide +kernel⟩
  have hempty : Line none [] := .other (by decide) (by decide)
  simp only [List.forall_mem_cons, List.not_mem_nil, false_implies, implies_true, and_true]
  exact ⟨.entry (.rfl _), .entry hmark, hempty, .entry (.rfl _), hempty⟩

/-- A case with the first of the models. -/
def firstWriting : Case where
  model := firstModel

/-- A case with the second. -/
def secondWriting : Case where
  model := secondModel

/-- Both models are read as the three literals, and the second case is dropped behind the first. -/
theorem parse_writes_threeLiterals :
    (Writable threeLiterals ∧ Writes threeLiterals firstModel ∧
        Writes threeLiterals secondWriting.model) ∧
      parse firstModel = threeLiterals ∧
      (outcomes numberFunction {} [⟨"foo", firstWriting⟩, ⟨"foo", secondWriting⟩] {})[1]? =
        some (.ok none) := by
  obtain ⟨hparse, hdropped⟩ := parse_writes writable_threeLiterals writes_firstModel
  have hsecond : Writes threeLiterals secondWriting.model := writes_secondModel
  obtain ⟨-, hruns⟩ := hdropped numberFunction {} "foo" firstWriting secondWriting rfl hsecond
    (fun _ _ => Iff.rfl)
  exact ⟨⟨writable_threeLiterals, writes_firstModel, hsecond⟩, hparse,
    hruns [⟨"foo", firstWriting⟩, ⟨"foo", secondWriting⟩] {} 0 1 (by decide) (by decide) rfl rfl⟩

end Model

end TestSynth
