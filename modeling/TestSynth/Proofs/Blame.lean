import TestSynth.Case.Binding
import TestSynth.Proofs.Cuts
import TestSynth.Proofs.Faults

/-!
# What errors blame

An error that blames a token is right about it if the text in front of it could still be continued,
and an error that blames an opening delimiter is right if that delimiter stands there.  Errors are
right but for three cases: the token behind the dot of a field is taken before it is looked at, so
the one behind it is blamed; a definition that is not closed is blamed on its register; and a group
that is not closed is blamed on the beginning of the atom around it, and said to be one in braces.

* `Declarations.Viable`, `Declarations.BlamesRightly` : when an error is right.
* `Declarations.Misblames` : the three cases.
* `Declarations.bindText_blame` : there are no others.
-/

namespace TestSynth

open Lexeme (bytes isGap readFrom)

/-! ### What is found -/

namespace Lexeme

/-- What an error says is found where a text goes on: the token there, or its end. -/
def FoundAt (behind : List Char) (text : String) : Prop :=
  behind = [] ∧ text = "end of input" ∨
    ∃ t rest, Token.scan? behind = some (t, rest) ∧ text = t.spelling

theorem foundAt_readFrom (pos : Nat) (s : List Char) :
    FoundAt (s.dropWhile isGap) (found (readFrom pos s)) := by
  rcases blank_or_scan? s with hblank | ⟨t, rest, hscan⟩
  · rw [readFrom_of_blank hblank]
    exact .inl ⟨hblank, rfl⟩
  · rw [readFrom_of_scan? hscan]
    exact .inr ⟨t, rest, hscan, rfl⟩

namespace Cut

variable {s : List Char} {taken rest : List Lexeme}

theorem foundAt_behind (cut : Cut s taken rest) : FoundAt cut.behind (found rest) := by
  rcases cut.rest_cases with ⟨rfl, hbehind⟩ | ⟨l, rest', more, rfl, hscan, -, -⟩
  · exact .inl ⟨hbehind, rfl⟩
  · exact .inr ⟨_, more, hscan, rfl⟩

theorem foundAt_next {l : Lexeme} (cut : Cut s taken (l :: rest)) :
    ∃ gap behind, Token.scan? cut.behind = some (l.token, gap ++ behind) ∧
      s = (cut.front ++ (l.text.toList ++ gap)) ++ behind ∧
      position (bytes s) rest = bytes (cut.front ++ (l.text.toList ++ gap)) ∧
      FoundAt behind (found rest) := by
  obtain ⟨more, hscan, -, hrest⟩ := cut.exists_scan?
  have hs : s = cut.front ++ (l.text.toList ++ more) :=
    cut.eq_front_append.trans (congrArg (cut.front ++ ·) (Token.scan?_eq_some hscan))
  refine ⟨more.takeWhile isGap, more.dropWhile isGap, ?_, ?_, ?_, ?_⟩
  · rw [List.takeWhile_append_dropWhile, hscan]
  · rw [List.append_assoc, List.append_assoc, List.takeWhile_append_dropWhile]
    exact hs
  · have hsize : bytes s = bytes cut.front + bytes l.text.toList + bytes more := by
      rw [congrArg bytes hs, bytes_append, bytes_append, Nat.add_assoc]
    have hposition := position_readFrom (bytes cut.front + bytes l.text.toList) more
    rw [← hrest, ← hsize] at hposition
    rw [hposition, bytes_append, bytes_append, Nat.add_assoc]
  · have hfound := foundAt_readFrom (bytes cut.front + bytes l.text.toList) more
    rwa [← hrest] at hfound

end Cut

end Lexeme

/-! ### Failures of a whole text -/

namespace Value

variable {limit : Nat} {source : String} {failure : Failure}

theorem parse_eq_error :
    parse limit source = .error failure ↔
      read source.utf8ByteSize limit limit .nothing (Lexeme.ofText source) = .error failure ∨
        ∃ v rest, read source.utf8ByteSize limit limit .nothing (Lexeme.ofText source) =
          .ok (v, rest) ∧ rest ≠ [] ∧
            failure = ⟨some v, unexpected source.utf8ByteSize "end of expression" rest⟩ := by
  rw [parse, bind_eq_error]
  refine or_congr_right ⟨?_, ?_⟩
  · rintro ⟨⟨v, rest⟩, hread, h⟩
    cases rest with
    | nil => cases h
    | cons l rest => exact ⟨v, l :: rest, hread, List.cons_ne_nil _ _, (Except.error.inj h).symm⟩
  · rintro ⟨v, rest, hread, hrest, rfl⟩
    refine ⟨(v, rest), hread, ?_⟩
    cases rest with
    | nil => exact absurd rfl hrest
    | cons l rest => rfl

theorem fault_of_parse (h : parse limit source = .error failure)
    (he : failure.error.isUnexpectedToken = true) :
    Fault (read · limit limit .nothing ·) source.utf8ByteSize (Lexeme.ofText source) failure.error ∨
      Missing (read · limit limit .nothing ·) source.utf8ByteSize (Lexeme.ofText source)
        failure.error := by
  obtain hread | ⟨v, rest, hread, hrest, rfl⟩ := parse_eq_error.1 h
  · exact fault_of_read hread he
  · obtain ⟨taken, hls, htaken⟩ := read_local hread
    rw [hls]
    refine .inl (.token (by decide) hrest fun size' => ?_)
    have hend := htaken size' [] (.nil rest)
    rw [List.append_nil] at hend
    rw [hend]
    rfl

theorem parse_of_unfinished
    (h : Unfinished (read source.utf8ByteSize limit limit .nothing (Lexeme.ofText source)))
    (hfail : parse limit source = .error failure) : failure.error.isUnexpectedToken = false := by
  obtain hread | ⟨v, rest, hread, hrest, -⟩ := parse_eq_error.1 hfail
  · rw [hread] at h
    exact h
  · rw [hread] at h
    exact absurd h hrest

end Value

namespace Token

variable {s rest : List Char} {t : Token}

theorem head?_of_scan? (h : scan? s = some (t, rest)) (more : List Char) :
    (t.spelling.toList ++ more).head? = s.head? := by
  obtain ⟨c, w, hw⟩ := List.exists_cons_of_ne_nil (spelling_ne_nil h)
  rw [scan?_eq_some h, hw]
  rfl

theorem exists_scan?_of_isRun (h : scan? s = some (t, rest)) (ht : t.isRun = false)
    (more : List Char) :
    ∃ t' rest', scan? (t.spelling.toList ++ more) = some (t', rest') ∧ t'.isWord = false := by
  cases t with
  | elementOpen => exact ⟨_, _, rfl, rfl⟩
  | regionOpen => exact ⟨_, _, rfl, rfl⟩
  | register _ => cases ht
  | conjured _ => cases ht
  | word _ => cases ht
  | minus =>
    -- it may become an arrow
    by_cases hhead : more.head? = some '>'
    · obtain ⟨more, rfl⟩ := List.head?_eq_some_iff.1 hhead
      exact ⟨.arrow, more, rfl, rfl⟩
    · exact ⟨_, _, scan?_mark rfl fun _ => hhead, rfl⟩
  | _ => exact ⟨_, _, scan?_mark rfl nofun, rfl⟩

theorem isNumbered_append_x (mark run : List Char) : isNumbered mark (run ++ ['x']) = false := by
  by_cases hlength : mark.length < (run ++ ['x']).length
  · have hle : mark.length ≤ run.length := by simpa [Nat.lt_succ_iff] using hlength
    have hdigit : ((run ++ ['x']).drop mark.length).all Char.isDigit = false := by
      rw [List.drop_append_of_le_length hle, List.all_append, Bool.and_eq_false_imp]
      exact fun _ => rfl
    rw [isNumbered, hdigit, Bool.and_false]
  · rw [isNumbered, decide_eq_false hlength, Bool.and_false, Bool.false_and]

theorem scan?_append_x (h : scan? s = some (t, rest)) (ht : t.isRun = true) :
    scan? (t.spelling.toList ++ ['x']) =
      some (.word (String.ofList (t.spelling.toList ++ ['x'])), []) := by
  have hword : ∀ c ∈ t.spelling.toList ++ ['x'], isWordChar c = true := by
    intro c hc
    rcases List.mem_append.1 hc with hc | hc
    · exact isWordChar_of_scan? h ht hc
    · rw [List.mem_singleton.1 hc]
      decide +kernel
  have hrun := @scan?_run _ [] (List.append_ne_nil_of_right_ne_nil _ (List.cons_ne_nil _ _)) hword
    nofun
  rw [List.append_nil] at hrun
  rw [hrun, ofRun.plain, if_neg (by simp [isNumbered_append_x]),
    if_neg (by simp [isNumbered_append_x])]

end Token

namespace Declarations

open Value (Awaited AtomState FieldDue stateBehind tokens)

variable (d : Declarations) (limit : Nat)

/-! ### Rightful blame -/

/-- The text can be continued so that it does not fail for a token. -/
def Viable (text : List Char) : Prop :=
  ∃ more, ∀ e, (d.bindText limit (String.ofList (text ++ more)) {}).1 = .error e →
    e.isUnexpectedToken = false

/-- The error blames the right place: the token at its position, or the end of the text, in front of
which all is viable, or a delimiter that stands there. -/
def BlamesRightly (source : String) : ParseError → Prop
  | .unexpectedToken position _ found => ∃ before behind, source.toList = before ++ behind ∧
      bytes before = position ∧ Lexeme.FoundAt behind found ∧ d.Viable limit before
  | .unclosed delimiter position => ∃ before behind,
      source.toList = before ++ (delimiter.toList ++ behind) ∧ bytes before = position
  | _ => True

/-- The ways in which an error blames the wrong place. -/
inductive Misblames (source : String) : ParseError → Prop
  /-- Behind a dot there is no field name, and the error blames what stands behind the token there.
  It is right about that if the token is a symbol with no blank behind it, to which more could be
  written. -/
  | behindOffender {taken rest : List Lexeme} {dot offender : Lexeme}
      (hsource : Lexeme.ofText source = taken ++ dot :: offender :: rest) (hdot : dot.token = .dot)
      (hword : offender.token.isWord = false)
      (hsymbol : offender.token.isRun = true →
        offender.stop ≠ Lexeme.position source.utf8ByteSize rest) :
      Misblames source (Value.unexpected source.utf8ByteSize "field name" rest)
  /-- The angle bracket behind a register is not closed, and the error blames the register. -/
  | definition {before gap behind : List Char} {name : String}
      (hsource : source.toList = before ++ (name.toList ++ (gap ++ '<' :: behind)))
      (hname : Token.scan? (name.toList ++ (gap ++ '<' :: behind)) =
        some (.register name, gap ++ '<' :: behind))
      (hgap : ∀ c ∈ gap, isGap c = true) :
      Misblames source (.unclosed "<" (bytes before))
  /-- A group in an atom is not closed, and the error blames the beginning of the atom, which begins
  with something else than a brace. -/
  | atom {before behind : List Char} (awaited : Awaited)
      (hsource : source.toList = before ++ behind)
      (hpass : AtomState.Passes awaited {} (tokens (readFrom 0 behind)))
      (hopen : 0 < (stateBehind (readFrom 0 behind)).nesting)
      (hbrace : behind.head? ≠ some '{') :
      Misblames source (.unclosed "\x7b" (bytes before))

variable {d limit} {source : String} {e : ParseError}

theorem Misblames.expected_eq {position : Nat} {expected found : String}
    (h : Misblames source (.unexpectedToken position expected found)) :
    expected = "field name" := by
  cases h
  rfl

/-! ### Errors of a binding -/

theorem bindText_eq_error :
    (d.bindText limit source {}).1 = .error e ↔
      ∃ completed, Value.parse limit source = .error ⟨completed, e⟩ := by
  have hresolve (symbol : String) (t : Tables) : d.resolve limit [] symbol t = (.ok (), t) := by
    rw [resolve, dif_neg List.not_mem_nil]
  have hpending : ({} : Tables).parameters.keys = [] := rfl
  have hafter (v : Value) : (v.referent?.elim ((.ok (), {}) : Outcome Unit) fun symbol =>
      d.resolve limit [] symbol {}) = (.ok (), {}) := by
    cases v.referent? with
    | none => rfl
    | some symbol => exact hresolve symbol {}
  rw [bindText, hpending]
  unfold bindReading
  rcases Value.parse limit source with ⟨completed, e'⟩ | v
  · cases completed with
    | none => simp
    | some v => simp [hafter v]
  · simp [hafter v]

/-- A text is viable if its reading may come to its end. -/
theorem viable_of_unfinished {text more : List Char}
    (h : ∀ size, Value.Unfinished
      (Value.read size limit limit .nothing (readFrom 0 (text ++ more)))) :
    d.Viable limit text := by
  refine ⟨more, fun e he => ?_⟩
  obtain ⟨completed, hparse⟩ := bindText_eq_error.1 he
  refine Value.parse_of_unfinished ?_ hparse
  rw [Lexeme.ofText, String.toList_ofList]
  exact h _

/-- A text is not viable if its reading fails for a token, whatever follows. -/
theorem not_viable_of_read {text : List Char}
    (h : ∀ more size, ∃ failure,
      Value.read size limit limit .nothing (readFrom 0 (text ++ more)) = .error failure ∧
        failure.error.isUnexpectedToken = true) :
    ¬ d.Viable limit text := by
  rintro ⟨more, hmore⟩
  obtain ⟨failure, hread, hunexpected⟩ :=
    h more (String.ofList (text ++ more)).utf8ByteSize
  have hparse : Value.parse limit (String.ofList (text ++ more)) = .error failure := by
    rw [Value.parse_eq_error, Lexeme.ofText, String.toList_ofList]
    exact .inl hread
  rw [hmore _ (bindText_eq_error.2 ⟨_, hparse⟩)] at hunexpected
  cases hunexpected

section Cut

variable {taken rest : List Lexeme} (cut : Lexeme.Cut source.toList taken rest)

include cut

theorem blamesRightly_of_cut {expected : String} (hviable : d.Viable limit cut.front) :
    d.BlamesRightly limit source (Value.unexpected source.utf8ByteSize expected rest) := by
  refine ⟨cut.front, cut.behind, cut.eq_front_append, ?_, ?_, hviable⟩
  · rw [← Lexeme.bytes_toList, cut.position_eq]
  · exact cut.foundAt_behind

theorem viable_front
    (hword : ∀ size gap start, Value.Unfinished
      (Value.read size limit limit .nothing (taken ++ [⟨gap, .word "x", start⟩]))) :
    d.Viable limit cut.front := by
  obtain ⟨gap, start, hread⟩ := cut.readFrom_word
  refine @viable_of_unfinished _ _ _ [' ', 'x'] fun size => ?_
  rw [hread]
  exact hword size gap start

variable {t : Token} {more : List Char}

theorem viable_front_append (hdue : FieldDue (Value.read · limit limit .nothing ·) taken)
    (hscan : Token.scan? cut.behind = some (t, more)) (ht : t.isRun = true) :
    d.Viable limit (cut.front ++ t.spelling.toList) := by
  refine @viable_of_unfinished _ _ _ ['x'] fun size => ?_
  rw [List.append_assoc, cut.readFrom_other (Token.scan?_append_x hscan ht)
    (Token.head?_of_scan? hscan _), Lexeme.readFrom_nil]
  exact hdue.word size _ rfl

/-- Neither another token nor what comes behind a blank becomes a word. -/
theorem not_viable_front_append {gap behind : List Char}
    (hdue : FieldDue (Value.read · limit limit .nothing ·) taken)
    (hscan : Token.scan? cut.behind = some (t, gap ++ behind)) (ht : t.isWord = false)
    (hsymbol : t.isRun = true → gap ≠ []) :
    ¬ d.Viable limit (cut.front ++ (t.spelling.toList ++ gap)) := by
  refine not_viable_of_read fun more size => ?_
  obtain ⟨t', rest', hscan', ht'⟩ : ∃ t' rest',
      Token.scan? (t.spelling.toList ++ (gap ++ more)) = some (t', rest') ∧ t'.isWord = false := by
    cases hrun : t.isRun with
    | false => exact Token.exists_scan?_of_isRun hscan hrun _
    | true => exact ⟨t, _, Token.scan?_of_fits hscan (.of_append (hsymbol hrun)), ht⟩
  rw [List.append_assoc, List.append_assoc,
    cut.readFrom_other hscan' (Token.head?_of_scan? hscan _)]
  exact hdue.other size _ _ ht'

end Cut

/-! ### Behind a dot -/

section Dot

variable {taken rest : List Lexeme} {dot offender : Lexeme}

theorem exists_cut_of_dot (hsource : Lexeme.ofText source = taken ++ dot :: rest) :
    Nonempty (Lexeme.Cut source.toList (taken ++ [dot]) rest) := by
  refine Lexeme.Cut.exists_of_readFrom ?_
  rw [List.append_assoc]
  exact hsource

/-- An error about a field name was met at the token in front of its place, if that token stands
behind a dot. -/
theorem fieldDue_of_bindText (hdot : dot.token = .dot)
    (hsource : Lexeme.ofText source = taken ++ dot :: offender :: rest)
    (h : (d.bindText limit source {}).1 =
      .error (Value.unexpected source.utf8ByteSize "field name" rest)) :
    offender.token.isWord = false ∧
      FieldDue (Value.read · limit limit .nothing ·) (taken ++ [dot]) := by
  obtain ⟨completed, hparse⟩ := bindText_eq_error.1 h
  have hsuffix : rest <:+ Lexeme.ofText source :=
    ⟨taken ++ [dot, offender], by rw [hsource]; simp⟩
  generalize he : Value.unexpected source.utf8ByteSize "field name" rest = e at hparse
  have hunexpected : e.isUnexpectedToken = true := he ▸ rfl
  rcases Value.fault_of_parse hparse hunexpected with hfault | hmissing
  · generalize hls : Lexeme.ofText source = ls at hfault
    cases hfault with
    | token hexpected => exact absurd (ParseError.unexpectedToken.inj he).2.1.symm hexpected
    | @field taken' rest' dot' hlast _ hword hdue =>
      obtain rfl : rest = rest'.tail :=
        Lexeme.eq_of_position_eq hsuffix
          (hls ▸ (List.tail_suffix rest').trans ⟨taken' ++ [dot'], by simp⟩)
          (ParseError.unexpectedToken.inj he).1
      rw [hls] at hsource
      cases rest' with
      | nil =>
        -- this dot would be the second of two
        have hdots : taken' ++ [dot'] = (taken ++ [dot]) ++ [offender] := by simpa using hsource
        obtain ⟨rfl, -⟩ := List.append_inj' hdots rfl
        obtain ⟨l, hl, hnot⟩ := hlast
        rw [List.getLast?_concat] at hl
        exact absurd (Option.some.inj hl ▸ hdot) hnot
      | cons l rest =>
        have hdots : (taken' ++ [dot', l]) ++ rest = (taken ++ [dot, offender]) ++ rest := by
          simpa using hsource
        obtain ⟨rfl, hpair⟩ := List.append_inj' (List.append_cancel_right hdots) rfl
        obtain ⟨rfl, rfl⟩ : dot' = dot ∧ l = offender := by simpa using hpair
        exact ⟨hword l rfl, hdue⟩
  · generalize Lexeme.ofText source = ls at hmissing
    cases hmissing with
    | atom => exact absurd (ParseError.unexpectedToken.inj he).2.1 (by decide)

theorem stop_eq_position_iff (cut : Lexeme.Cut source.toList taken (offender :: rest))
    {gap : List Char} (hposition : Lexeme.position source.utf8ByteSize rest =
      bytes (cut.front ++ (offender.text.toList ++ gap))) :
    offender.stop = Lexeme.position source.utf8ByteSize rest ↔ gap = [] := by
  rw [hposition, Lexeme.stop, cut.start_eq, Lexeme.bytes_append, Lexeme.bytes_append,
    Lexeme.bytes_toList]
  constructor
  · intro hbytes
    exact Lexeme.eq_nil_of_bytes (by omega)
  · rintro rfl
    rfl

/-- Where only a field name can stand, the error is about the token behind the next one, which is
right if that is a symbol to which more could be written. -/
theorem blamesRightly_or_misblames_of_dot (hdot : dot.token = .dot)
    (cut : Lexeme.Cut source.toList (taken ++ [dot]) rest)
    (hsource : Lexeme.ofText source = taken ++ dot :: rest)
    (hnext : ∀ l ∈ rest.head?, l.token.isWord = false)
    (hdue : FieldDue (Value.read · limit limit .nothing ·) (taken ++ [dot])) :
    d.BlamesRightly limit source (Value.unexpected source.utf8ByteSize "field name" rest.tail) ∨
      Misblames source (Value.unexpected source.utf8ByteSize "field name" rest.tail) := by
  cases rest with
  | nil => exact .inl (blamesRightly_of_cut cut (viable_front cut fun size _ _ =>
      hdue.word size _ rfl))
  | cons l rest =>
    obtain ⟨gap, behind, hscan, hs, hposition, hfound⟩ := cut.foundAt_next
    rw [Lexeme.bytes_toList] at hposition
    by_cases hsymbol : l.token.isRun = true → gap ≠ []
    · refine .inr (.behindOffender hsource hdot (hnext l rfl) fun hrun hstop => ?_)
      exact hsymbol hrun ((stop_eq_position_iff cut hposition).1 hstop)
    · obtain ⟨hrun, rfl⟩ : l.token.isRun = true ∧ gap = [] := by simpa using hsymbol
      refine .inl ⟨_, behind, hs, hposition.symm, hfound, ?_⟩
      rw [List.append_nil]
      exact viable_front_append cut hdue hscan hrun

end Dot

/-- An error that blames the wrong place is not right. -/
theorem Misblames.not_blamesRightly (h : Misblames source e)
    (hfail : (d.bindText limit source {}).1 = .error e) : ¬ d.BlamesRightly limit source e := by
  cases h with
  | @behindOffender taken rest dot offender hsource hdot _ hsymbol =>
    obtain ⟨hword, hdue⟩ := fieldDue_of_bindText hdot hsource hfail
    obtain ⟨cut⟩ := exists_cut_of_dot hsource
    obtain ⟨gap, behind, hscan, hs, hposition, -⟩ := cut.foundAt_next
    rw [Lexeme.bytes_toList] at hposition
    have hgap (hrun : offender.token.isRun = true) (heq : gap = []) : False :=
      hsymbol hrun ((stop_eq_position_iff cut hposition).2 heq)
    rintro ⟨before, behind', hsource', hbytes, -, hviable⟩
    obtain ⟨rfl, -⟩ :=
      Lexeme.append_inj_of_bytes (hsource'.symm.trans hs) (hbytes.trans hposition)
    exact not_viable_front_append cut hdue hscan hword hgap hviable
  | @definition before gap behind name hsource hname _ =>
    rintro ⟨before', behind', hsource', hbytes⟩
    obtain ⟨-, hbehind⟩ := Lexeme.append_inj_of_bytes (hsource'.symm.trans hsource) hbytes
    rw [← hbehind] at hname
    cases hname
  | @atom before behind _ hsource _ _ hbrace =>
    rintro ⟨before', behind', hsource', hbytes⟩
    obtain ⟨-, rfl⟩ := Lexeme.append_inj_of_bytes (hsource'.symm.trans hsource) hbytes
    exact hbrace rfl

/-! ### All errors -/

theorem blamesRightly_or_misblames_of_fault {e : ParseError}
    (h : Value.Fault (Value.read · limit limit .nothing ·) source.utf8ByteSize
      (Lexeme.ofText source) e) :
    d.BlamesRightly limit source e ∨ Misblames source e := by
  generalize hls : Lexeme.ofText source = ls at h
  cases h with
  | @token taken rest expected _ hrest hviable =>
    obtain ⟨cut⟩ := Lexeme.Cut.exists_of_readFrom hls
    refine .inl (blamesRightly_of_cut cut (@viable_of_unfinished _ _ _ [] fun size => ?_))
    rw [List.append_nil, cut.readFrom_front]
    exact hviable size
  | @field taken rest dot _ hdot hword hdue =>
    obtain ⟨cut⟩ := exists_cut_of_dot hls
    exact blamesRightly_or_misblames_of_dot hdot cut hls hword hdue

theorem blamesRightly_of_missing
    (h : Value.Missing (Value.read · limit limit .nothing ·) source.utf8ByteSize
      (Lexeme.ofText source) e) :
    d.BlamesRightly limit source e := by
  generalize hls : Lexeme.ofText source = ls at h
  cases h with
  | @atom taken rest hviable =>
    obtain ⟨cut⟩ := Lexeme.Cut.exists_of_readFrom hls
    exact blamesRightly_of_cut cut (viable_front cut hviable)

/-- The marker of a layer is blamed rightly.  The register in front of an angle bracket is not, and
the beginning of an atom is if it is a brace. -/
theorem blamesRightly_or_misblames_of_opener {taken rest : List Lexeme} {opener : String}
    {position : Nat} (hls : Lexeme.ofText source = taken ++ rest)
    (h : Value.Opener opener position rest) :
    d.BlamesRightly limit source (.unclosed opener position) ∨
      Misblames source (.unclosed opener position) := by
  obtain ⟨cut⟩ := Lexeme.Cut.exists_of_readFrom hls
  have hs := cut.eq_front_append
  cases h with
  | @layer l rest =>
    obtain ⟨more, hscan, hstart, -⟩ := cut.exists_scan?
    refine .inl ⟨cut.front, more, ?_, hstart.symm⟩
    exact hs.trans (congrArg _ (Token.scan?_eq_some hscan))
  | @definition l l' rest hregister hangle =>
    obtain ⟨more, hscan, hstart, hrest⟩ := cut.exists_scan?
    obtain ⟨gap, behind, rfl, hgap⟩ := Lexeme.eq_append_of_readFrom hrest.symm
    obtain ⟨name, hname⟩ : ∃ name, l.token = .register name := by
      cases ht : l.token with
      | register name => exact ⟨name, rfl⟩
      | _ => simp [ht, Token.isRegister] at hregister
    have hangle : l'.text.toList = ['<'] := by rw [Lexeme.text, hangle]; rfl
    rw [hname, hangle, List.singleton_append] at hscan
    have hbehind := Token.scan?_eq_some hscan
    rw [hstart]
    exact .inr (.definition (hs.trans (congrArg _ hbehind)) (hbehind ▸ hscan) hgap)
  | @atom l rest awaited hpass hopen =>
    obtain ⟨more, hscan, hstart, -⟩ := cut.exists_scan?
    rw [hstart]
    by_cases hbrace : cut.behind.head? = some '{'
    · obtain ⟨behind, hbehind⟩ := List.head?_eq_some_iff.1 hbrace
      exact .inl ⟨cut.front, behind, hs.trans (congrArg _ hbehind), rfl⟩
    · have htokens := cut.map_token_readFrom_behind 0
      refine .inr (.atom awaited hs ?_ ?_ hbrace)
      · rw [tokens, htokens]
        exact hpass
      · rw [stateBehind, tokens, htokens]
        exact hopen

/-- **Whom errors blame.**  If a text fails, the error blames the right place, except for a token
behind the one that is no field name, for a definition that is not closed and for a group that is
not closed in an atom.  In the first case all was viable up to the token that is no field name. -/
theorem bindText_blame (h : (d.bindText limit source {}).1 = .error e) :
    (d.BlamesRightly limit source e ↔ ¬ Misblames source e) ∧
      ∀ taken dot offender rest, Lexeme.ofText source = taken ++ dot :: offender :: rest →
        dot.token = .dot → e = Value.unexpected source.utf8ByteSize "field name" rest →
          ∃ before behind, source.toList = before ++ behind ∧ bytes before = offender.start ∧
            d.Viable limit before := by
  refine ⟨⟨fun hright hwrong => hwrong.not_blamesRightly h hright, fun hnot => ?_⟩, ?_⟩
  · refine Or.resolve_right ?_ hnot
    obtain ⟨completed, hparse⟩ := bindText_eq_error.1 h
    cases e with
    | unexpectedToken position expected found =>
      rcases Value.fault_of_parse hparse rfl with hfault | hmissing
      · exact blamesRightly_or_misblames_of_fault hfault
      · exact .inl (blamesRightly_of_missing hmissing)
    | unclosed opener position =>
      obtain hread | ⟨v, rest, -, -, heq⟩ := Value.parse_eq_error.1 hparse
      · obtain ⟨rest, ⟨taken, hls⟩, hopener⟩ := Value.opener_of_read hread
        exact blamesRightly_or_misblames_of_opener hls.symm hopener
      · cases heq
    | unexpectedEnd => exact .inl trivial
    | invalidIndex text => exact .inl trivial
    | tooDeep depth limit => exact .inl trivial
  · rintro taken dot offender rest hsource hdot rfl
    obtain ⟨-, hdue⟩ := fieldDue_of_bindText hdot hsource h
    obtain ⟨cut⟩ := exists_cut_of_dot hsource
    exact ⟨cut.front, cut.behind, cut.eq_front_append, cut.start_eq.symm,
      viable_front cut fun size _ _ => hdue.word size _ rfl⟩

/-- The error at a comma behind a region is right, and behind a region and a dot all was viable when
a second dot was met. -/
theorem bindText_blame_twoTexts :
    ((({} : Declarations).bindText Value.defaultLimit "SymRegion\x7bx\x7d," {}).1 =
        .error (.unexpectedToken 12 "end of expression" ",") ∧
      ({} : Declarations).BlamesRightly Value.defaultLimit "SymRegion\x7bx\x7d,"
        (.unexpectedToken 12 "end of expression" ",")) ∧
    (({} : Declarations).bindText Value.defaultLimit "SymRegion\x7bx\x7d..a" {}).1 =
        .error (.unexpectedToken 14 "field name" "a") ∧
      ({} : Declarations).Viable Value.defaultLimit "SymRegion\x7bx\x7d.".toList := by
  have hcomma : Value.parse Value.defaultLimit "SymRegion\x7bx\x7d," =
      .error ⟨some (.region (.atom "x") []), .unexpectedToken 12 "end of expression" ","⟩ := by
    decide +kernel
  have hdots : Value.parse Value.defaultLimit "SymRegion\x7bx\x7d..a" =
      .error ⟨some (.atom "x"), .unexpectedToken 14 "field name" "a"⟩ := by
    decide +kernel
  have hbind := (@bindText_eq_error {} _ _ _).2 ⟨_, hcomma⟩
  have hbind' := (@bindText_eq_error {} _ _ _).2 ⟨_, hdots⟩
  refine ⟨⟨hbind, (bindText_blame hbind).1.2 fun hwrong =>
    absurd hwrong.expected_eq (by decide)⟩, hbind', ?_⟩
  obtain ⟨before, behind, hsource, hbytes, hviable⟩ := (bindText_blame hbind').2
    [⟨"", .regionOpen, 0⟩, ⟨"", .word "x", 10⟩, ⟨"", .closeBrace, 11⟩] ⟨"", .dot, 12⟩
    ⟨"", .dot, 13⟩ [⟨"", .word "a", 14⟩] (by decide +kernel) rfl (by decide +kernel)
  have hsplit : "SymRegion\x7bx\x7d..a".toList = "SymRegion\x7bx\x7d.".toList ++ ['.', 'a'] := by
    decide +kernel
  obtain ⟨rfl, -⟩ := Lexeme.append_inj_of_bytes (hsource.symm.trans hsplit)
    (hbytes.trans (by decide +kernel))
  exact hviable

/-- Three errors that blame the wrong place: the token behind an offending dot, a register in front
of an angle bracket that is not closed, and a function in front of a parenthesis that is not. -/
theorem not_blamesRightly_threeTexts :
    ((({} : Declarations).bindText Value.defaultLimit "SymRegion\x7bx\x7d..a" {}).1 =
        .error (.unexpectedToken 14 "field name" "a") ∧
      ¬ ({} : Declarations).BlamesRightly Value.defaultLimit "SymRegion\x7bx\x7d..a"
        (.unexpectedToken 14 "field name" "a")) ∧
    ((({} : Declarations).bindText Value.defaultLimit "reg_$0<int" {}).1 =
        .error (.unclosed "<" 0) ∧
      ¬ ({} : Declarations).BlamesRightly Value.defaultLimit "reg_$0<int" (.unclosed "<" 0)) ∧
    (({} : Declarations).bindText Value.defaultLimit "f(x" {}).1 = .error (.unclosed "\x7b" 0) ∧
      ¬ ({} : Declarations).BlamesRightly Value.defaultLimit "f(x" (.unclosed "\x7b" 0) := by
  have hfail (source : String) (completed : Option Value) (e : ParseError)
      (h : Value.parse Value.defaultLimit source = .error ⟨completed, e⟩) :=
    (@bindText_eq_error {} _ _ _).2 ⟨completed, h⟩
  have hdots := hfail "SymRegion\x7bx\x7d..a" (some (.atom "x"))
    (.unexpectedToken 14 "field name" "a") (by decide +kernel)
  have hmisblames : Misblames "SymRegion\x7bx\x7d..a" (.unexpectedToken 14 "field name" "a") :=
    @Misblames.behindOffender "SymRegion\x7bx\x7d..a"
      [⟨"", .regionOpen, 0⟩, ⟨"", .word "x", 10⟩, ⟨"", .closeBrace, 11⟩] [⟨"", .word "a", 14⟩]
      ⟨"", .dot, 12⟩ ⟨"", .dot, 13⟩ (by decide +kernel) rfl rfl nofun
  refine ⟨⟨hdots, hmisblames.not_blamesRightly hdots⟩, ⟨hfail _ none _ (by decide +kernel), ?_⟩,
    hfail _ none _ (by decide +kernel), ?_⟩
  · rintro ⟨before, behind, hsource, hbytes⟩
    obtain rfl := Lexeme.eq_nil_of_bytes hbytes
    exact absurd hsource (by simp)
  · rintro ⟨before, behind, hsource, hbytes⟩
    obtain rfl := Lexeme.eq_nil_of_bytes hbytes
    exact absurd hsource (by simp)

end Declarations

end TestSynth
