import TestSynth.Proofs.BracketGroups
import TestSynth.Proofs.Layers

/-!
# What a reading depends on

A value is read from the lexemes that it is made of and the token behind them: whatever follows that
token, and if the text ends there, the same value is read.

* `Value.takeRaw_eq_some_iff`, `Value.takeRaw_eq_none_iff` : raw text is taken up to the token that
  ends it, and without one not at all.
* `Value.Continues` : lexemes that may stand behind a value in the place of others.
* `Value.read_local` : the value is read in front of all of them.
-/

namespace TestSynth

namespace Value

variable {awaited : Awaited} {size n : Nat} {ls rest taken : List Lexeme}

/-! ### Raw text -/

/-- Raw text inside `n` groups goes on with the tokens. -/
def Awaited.PassesRaw (awaited : Awaited) : (n : Nat) → List Token → Prop
  | _, [] => True
  | n, t :: ts => (n = 0 && awaited.endsAt 0 t) = false ∧ awaited.PassesRaw (t.nest n) ts

/-- The number of open groups behind some tokens. -/
def nestBehind (n : Nat) (ts : List Token) : Nat := ts.foldl (fun n t => t.nest n) n

/-- **Raw text is taken up to the token that ends it.** -/
theorem takeRaw_eq_some_iff :
    takeRaw awaited n (ls ++ rest) = some (ls, rest) ↔
      awaited.PassesRaw n (tokens ls) ∧ nestBehind n (tokens ls) = 0 ∧
        ∃ l ∈ rest.head?, awaited.endsAt 0 l.token = true := by
  induction ls generalizing n with
  | nil =>
    show takeRaw awaited n rest = _ ↔ True ∧ n = 0 ∧ _
    cases rest with
    | nil => simp [takeRaw]
    | cons l rest =>
      rw [takeRaw]
      split
      · next hends => simpa using hends
      · next hgo => simpa [Option.map_eq_some_iff] using hgo
  | cons l ls ih =>
    rw [List.cons_append, takeRaw]
    split
    · next hends =>
      refine iff_of_false (fun h => ?_) ?_
      · cases h
      rintro ⟨⟨hgo, -⟩, -⟩
      rw [hgo] at hends
      cases hends
    · next hgo =>
      have hpass : awaited.PassesRaw n (tokens (l :: ls)) ↔
          awaited.PassesRaw (l.token.nest n) (tokens ls) := and_iff_right (Bool.eq_false_iff.2 hgo)
      have hnest : nestBehind n (tokens (l :: ls)) = nestBehind (l.token.nest n) (tokens ls) := rfl
      rw [hpass, hnest, ← ih]
      simp [Option.map_eq_some_iff]

/-- Raw text that goes on to the end of the lexemes is not taken. -/
theorem takeRaw_eq_none_iff :
    takeRaw awaited n ls = none ↔ awaited.PassesRaw n (tokens ls) := by
  induction ls generalizing n with
  | nil => exact iff_of_true rfl trivial
  | cons l ls ih =>
    rw [takeRaw]
    split
    · next hends =>
      refine iff_of_false (Option.some_ne_none _) ?_
      rintro ⟨hgo, -⟩
      rw [hgo] at hends
      cases hends
    · next hgo =>
      rw [Option.map_eq_none_iff, ih]
      exact (and_iff_right (Bool.eq_false_iff.2 hgo)).symm

/-! ### The token behind a value -/

/-- Lexemes that go on as `rest` does: with the same token, or not at all. -/
def Continues (rest rest' : List Lexeme) : Prop :=
  ∀ l' ∈ rest'.head?, ∃ l ∈ rest.head?, l.token = l'.token

theorem Continues.nil (rest : List Lexeme) : Continues rest [] := nofun

theorem Continues.cons (l : Lexeme) (rest rest' : List Lexeme) :
    Continues (l :: rest) (l :: rest') := fun l' hl' => ⟨l', hl', rfl⟩

theorem Continues.append (ls rest rest' : List Lexeme) (hls : ls ≠ []) :
    Continues (ls ++ rest) (ls ++ rest') := by
  obtain ⟨l, ls, rfl⟩ := List.exists_cons_of_ne_nil hls
  exact .cons l _ _

theorem Continues.front (ls rest : List Lexeme) : Continues (ls ++ rest) ls := by
  intro l' hl'
  obtain ⟨ls, rfl⟩ := List.head?_eq_some_iff.1 hl'
  exact ⟨l', rfl, rfl⟩

/-- Raw text is read in front of everything that goes on with the token that ends it, and not read
without one. -/
theorem raw_local {opener text : String} {opened : Nat}
    (h : raw opener opened awaited ls = .ok (text, rest)) :
    ∃ taken, ls = taken ++ rest ∧
      raw opener opened awaited taken = .error (.unclosed opener opened) ∧
      ∀ l' rest', Continues rest (l' :: rest') →
        raw opener opened awaited (taken ++ l' :: rest') = .ok (text, l' :: rest') := by
  rw [raw] at h
  split at h
  · next taken _ htake =>
    cases h
    obtain ⟨rfl, -⟩ := takeRaw_layout htake
    obtain ⟨hpass, hnest, l, hl, hends⟩ := takeRaw_eq_some_iff.1 htake
    refine ⟨taken, rfl, ?_, fun l' rest' hrest' => ?_⟩
    · rw [raw, takeRaw_eq_none_iff.2 hpass]
    · obtain ⟨m, hm, hml⟩ := hrest' l' rfl
      obtain rfl := Option.some.inj (hl.symm.trans hm)
      rw [raw, takeRaw_eq_some_iff.2 ⟨hpass, hnest, l', rfl, hml ▸ hends⟩]
  · cases h

/-! ### Fields -/

theorem not_dot_of_fieldNames {fields : List String} (h : fieldNames size ls = .ok (fields, rest)) :
    ∀ l ∈ rest.head?, l.token ≠ .dot := by
  fun_induction fieldNames size ls generalizing fields with
  | case1 gap start gap' name start' ls ih =>
    obtain ⟨⟨names, rest'⟩, hnames, heq⟩ := bind_ok h
    cases heq
    exact ih hnames
  | case2 => cases h
  | case3 ls hfield hdot =>
    cases h
    rintro ⟨gap, t, start⟩ hl rfl
    obtain ⟨ls, rfl⟩ := List.head?_eq_some_iff.1 hl
    exact hdot gap start ls rfl

theorem fieldNames_append_of_tokens {fields : List String} {fs : List Lexeme}
    (h : tokens fs = fieldTokens fields) :
    fieldNames size (fs ++ ls) =
      (fieldNames size ls).map fun (names, rest) => (fields ++ names, rest) := by
  induction fields generalizing fs with
  | nil =>
    obtain rfl : fs = [] := List.map_eq_nil_iff.1 h
    rw [List.nil_append]
    cases fieldNames size ls <;> rfl
  | cons f fields ih =>
    obtain ⟨⟨gap, _, start⟩, fs, rfl, rfl, htail⟩ := List.map_eq_cons_iff.1 h
    obtain ⟨⟨gap', _, start'⟩, fs, rfl, rfl, hfs⟩ := List.map_eq_cons_iff.1 htail
    rw [List.cons_append, List.cons_append, fieldNames, ih hfs]
    cases fieldNames size ls <;> rfl

theorem fieldNames_ne_nil {l : Lexeme} {fields : List String} (hl : l.token = .dot)
    (h : fieldNames size (l :: ls) = .ok (fields, rest)) : fields.isEmpty = false := by
  obtain ⟨gap, token, start⟩ := l
  obtain rfl : token = .dot := hl
  unfold fieldNames at h
  split at h
  · obtain ⟨⟨names, rest'⟩, -, hok⟩ := bind_eq_ok.1 h
    cases hok
    rfl
  · cases h
  · next hnot => exact absurd rfl (hnot _ _ _)

theorem fieldNames_local {fields : List String} (h : fieldNames size ls = .ok (fields, rest)) :
    ∃ taken, ls = taken ++ rest ∧ ∀ size' rest', Continues rest rest' →
      fieldNames size' (taken ++ rest') = .ok (fields, rest') := by
  obtain ⟨fs, rfl, hfs⟩ := fieldNames_layout h
  refine ⟨fs, rfl, fun size' rest' hrest' => ?_⟩
  have hdot : ∀ l ∈ rest'.head?, l.token ≠ .dot := by
    intro l' hl'
    obtain ⟨l, hl, hll'⟩ := hrest' l' hl'
    exact hll' ▸ not_dot_of_fieldNames h l hl
  rw [fieldNames_append_of_tokens hfs, fieldNames_of_not_dot hdot]
  simp [Except.map]

/-! ### Layers -/

theorem elementTail_eq_ok {opened : Nat} {index : Int} {type : String} :
    elementTail size opened ls = .ok (index, type, rest) ↔
      ∃ ls₁ text ls₂ ls₃ ls₄, expect size Token.elementOpen.spelling opened .comma ls = .ok ls₁ ∧
        raw Token.elementOpen.spelling opened .comma ls₁ = .ok (text, ls₂) ∧
        expect size Token.elementOpen.spelling opened .comma ls₂ = .ok ls₃ ∧
        raw Token.elementOpen.spelling opened .closeBrace ls₃ = .ok (type, ls₄) ∧
        expect size Token.elementOpen.spelling opened .closeBrace ls₄ = .ok rest ∧
        Index.parse text = .ok index := by
  simp only [elementTail, bind_eq_ok, Prod.exists, pure, Except.pure, Except.ok.injEq,
    Prod.mk.injEq]
  grind

/-- The index and the type of an element are read whatever follows them. -/
theorem elementTail_local {opened : Nat} {index : Int} {type : String}
    (h : elementTail size opened ls = .ok (index, type, rest)) :
    ∃ taken, ls = taken ++ rest ∧ (∃ l ∈ taken.getLast?, l.token = .closeBrace) ∧
      ∀ size' rest', elementTail size' opened (taken ++ rest') = .ok (index, type, rest') := by
  obtain ⟨ls₁, text, ls₂, ls₃, ls₄, hcomma₁, hindex, hcomma₂, htype, hclose, hparse⟩ :=
    elementTail_eq_ok.1 h
  obtain ⟨gap₁, start₁, rfl⟩ := expect_eq_ok.1 hcomma₁
  obtain ⟨gap₂, start₂, rfl⟩ := expect_eq_ok.1 hcomma₂
  obtain ⟨gap₃, start₃, rfl⟩ := expect_eq_ok.1 hclose
  obtain ⟨indexTaken, rfl, -, hindex'⟩ := raw_local hindex
  obtain ⟨typeTaken, rfl, -, htype'⟩ := raw_local htype
  refine ⟨⟨gap₁, .comma, start₁⟩ :: (indexTaken ++ ⟨gap₂, .comma, start₂⟩ :: (typeTaken ++
    [⟨gap₃, .closeBrace, start₃⟩])), by simp,
    ⟨⟨gap₃, .closeBrace, start₃⟩, by simp [List.getLast?_cons], rfl⟩, fun size' rest' => ?_⟩
  simp only [List.cons_append, List.append_assoc, List.nil_append]
  exact elementTail_eq_ok.2 ⟨_, text, _, _, _, expect_eq_ok.2 ⟨_, _, rfl⟩,
    hindex' _ _ (.cons _ _ _), expect_eq_ok.2 ⟨_, _, rfl⟩, htype' _ _ (.cons _ _ _),
    expect_eq_ok.2 ⟨_, _, rfl⟩, hparse⟩

/-- The tokens do not begin a layer, so they begin an atom. -/
def StartsAtom (ts : List Token) : Prop :=
  ∃ t, ts.head? = some t ∧ t ≠ .elementOpen ∧ t ≠ .regionOpen ∧
    (t.isRegister = true → ts[1]? ≠ some .openAngle)

theorem read_of_startsAtom {limit depth : Nat} (h : StartsAtom (tokens ls)) :
    read size limit (depth + 1) awaited ls = (atomValue size awaited ls).mapError (⟨none, ·⟩) := by
  obtain ⟨t, ht, helement, hregion, hdefinition⟩ := h
  unfold read
  split
  · cases ht
  · exact absurd (Option.some.inj ht).symm helement
  · exact absurd (Option.some.inj ht).symm hregion
  · obtain rfl := Option.some.inj ht
    exact absurd rfl (hdefinition rfl)
  · rfl

/-- What a reading begins with. -/
theorem layer_cases (ls : List Lexeme) :
    ls = [] ∨ (∃ gap start rest, ls = ⟨gap, .elementOpen, start⟩ :: rest) ∨
      (∃ gap start rest, ls = ⟨gap, .regionOpen, start⟩ :: rest) ∨
      (∃ gap name start gap' start' rest,
        ls = ⟨gap, .register name, start⟩ :: ⟨gap', .openAngle, start'⟩ :: rest) ∨
      StartsAtom (tokens ls) := by
  rcases ls with _ | ⟨⟨gap, t, start⟩, rest⟩
  · exact .inl rfl
  by_cases helement : t = .elementOpen
  · exact .inr (.inl ⟨gap, start, rest, by rw [helement]⟩)
  by_cases hregion : t = .regionOpen
  · exact .inr (.inr (.inl ⟨gap, start, rest, by rw [hregion]⟩))
  by_cases hdefinition : t.isRegister = true ∧ (tokens rest).head? = some .openAngle
  · obtain ⟨hregister, hangle⟩ := hdefinition
    obtain ⟨ts, hrest⟩ := List.head?_eq_some_iff.1 hangle
    obtain ⟨⟨gap', _, start'⟩, rest, rfl, rfl, -⟩ := List.map_eq_cons_iff.1 hrest
    cases t with
    | register name => exact .inr (.inr (.inr (.inl ⟨gap, name, start, gap', start', rest, rfl⟩)))
    | _ => cases hregister
  · refine .inr (.inr (.inr (.inr ⟨t, rfl, helement, hregion, fun hregister hangle => ?_⟩)))
    exact hdefinition ⟨hregister, by rw [List.head?_eq_getElem?]; exact hangle⟩

theorem StartsAtom.append (hne : taken ≠ []) (h : StartsAtom (tokens (taken ++ rest)))
    {rest' : List Lexeme} (hrest' : Continues rest rest') :
    StartsAtom (tokens (taken ++ rest')) := by
  obtain ⟨l, taken, rfl⟩ := List.exists_cons_of_ne_nil hne
  obtain ⟨t, ht, helement, hregion, hdefinition⟩ := h
  refine ⟨t, ht, helement, hregion, fun hregister hangle => hdefinition hregister ?_⟩
  cases taken with
  | cons m taken => exact hangle
  | nil =>
    -- the token that decides it is the one behind the atom
    obtain ⟨l', hl', htoken⟩ : ∃ l', rest'.head? = some l' ∧ l'.token = .openAngle := by
      cases rest' with
      | nil => cases hangle
      | cons l' rest' => exact ⟨l', rfl, Option.some.inj hangle⟩
    obtain ⟨m, hm, hml⟩ := hrest' l' hl'
    obtain ⟨rest, rfl⟩ := List.head?_eq_some_iff.1 hm
    exact congrArg some (hml.trans htoken)

theorem atomValue_local {v : Value} (h : atomValue size awaited ls = .ok (v, rest)) :
    ∃ taken, ls = taken ++ rest ∧ taken ≠ [] ∧ ∀ size' rest', Continues rest rest' →
      atomValue size' awaited (taken ++ rest') = .ok (v, rest') := by
  obtain ⟨taken, st, rest₁, htake⟩ : ∃ taken st rest₁,
    takeAtom awaited {} ls = (taken, st, rest₁) := ⟨_, _, _, rfl⟩
  obtain ⟨rfl, -⟩ := takeAtom_layout htake
  obtain ⟨hpass, hst, hends⟩ := takeAtom_eq_iff.1 htake
  simp only [atomValue, htake] at h
  split at h
  · cases h
  · next hnesting =>
    split at h
    · cases h
    · next htext =>
      cases h
      have hne : taken ≠ [] := by
        rintro rfl
        exact htext (by decide +kernel)
      refine ⟨taken, rfl, hne, fun size' rest' hrest' => ?_⟩
      have htake' : takeAtom awaited {} (taken ++ rest') = (taken, st, rest') := by
        refine takeAtom_eq_iff.2 ⟨hpass, hst, fun l' hl' => ?_⟩
        obtain ⟨l, hl, hll'⟩ := hrest' l' hl'
        exact hll' ▸ hends l hl
      simp only [atomValue, htake', hnesting, htext, if_false, Bool.false_eq_true]

/-- **A value is read in front of everything that goes on as what followed it.** -/
theorem read_local {limit depth : Nat} {v : Value}
    (h : read size limit depth awaited ls = .ok (v, rest)) :
    ∃ taken, ls = taken ++ rest ∧ ∀ size' rest', Continues rest rest' →
      read size' limit depth awaited (taken ++ rest') = .ok (v, rest') := by
  induction depth generalizing awaited ls v rest with
  | zero => cases h
  | succ depth ih =>
    rcases layer_cases ls with rfl | ⟨gap, start, ls, rfl⟩ | ⟨gap, start, ls, rfl⟩ |
      ⟨gap, name, start, gap₁, start₁, ls, rfl⟩ | hstarts
    · cases h
    · obtain ⟨base, ls₁, index, type, ls₂, fields, hbase, htail, hfields, rfl⟩ :=
        elementValue_eq_ok.1 h
      obtain ⟨baseTaken, rfl, hbase'⟩ := ih hbase
      obtain ⟨tailTaken, rfl, ⟨l, hl, -⟩, htail'⟩ := elementTail_local htail
      obtain ⟨fs, rfl, hfields'⟩ := fieldNames_local hfields
      have hne : tailTaken ≠ [] := List.getLast?_isSome.1 (Option.isSome_of_mem hl)
      -- behind the base stands the same delimiter, so only the fields meet what follows
      refine ⟨⟨gap, .elementOpen, start⟩ :: (baseTaken ++ (tailTaken ++ fs)), by simp,
        fun size' rest' hrest' => ?_⟩
      simp only [List.cons_append, List.append_assoc]
      exact elementValue_eq_ok.2 ⟨base, _, index, type, _, fields,
        hbase' size' _ (.append tailTaken _ _ hne), htail' size' _, hfields' size' rest' hrest',
        rfl⟩
    · obtain ⟨w, ls₁, ls₂, fields, hw, hclose, hfields, rfl⟩ := regionValue_eq_ok.1 h
      obtain ⟨wTaken, rfl, hw'⟩ := ih hw
      obtain ⟨gap₁, start₁, rfl⟩ := expect_eq_ok.1 hclose
      obtain ⟨fs, rfl, hfields'⟩ := fieldNames_local hfields
      refine ⟨⟨gap, .regionOpen, start⟩ :: (wTaken ++ ⟨gap₁, .closeBrace, start₁⟩ :: fs), by simp,
        fun size' rest' hrest' => ?_⟩
      simp only [List.cons_append, List.append_assoc]
      exact regionValue_eq_ok.2 ⟨w, _, _, fields,
        hw' size' _ (.cons _ _ _),
        expect_eq_ok.2 ⟨_, _, rfl⟩, hfields' size' rest' hrest', rfl⟩
    · obtain ⟨type, ls₁, ls₂, w, ls₃, htype, hcomma, hw, hclose, rfl⟩ := definitionValue_eq_ok.1 h
      obtain ⟨gap₂, start₂, rfl⟩ := expect_eq_ok.1 hcomma
      obtain ⟨typeTaken, rfl, -, htype'⟩ := raw_local htype
      obtain ⟨gap₃, start₃, rfl⟩ := expect_eq_ok.1 hclose
      obtain ⟨wTaken, rfl, hw'⟩ := ih hw
      refine ⟨⟨gap, .register name, start⟩ :: ⟨gap₁, .openAngle, start₁⟩ :: (typeTaken ++
        ⟨gap₂, .comma, start₂⟩ :: (wTaken ++ [⟨gap₃, .closeAngle, start₃⟩])), by simp,
        fun size' rest' hrest' => ?_⟩
      simp only [List.cons_append, List.append_assoc, List.nil_append]
      refine definitionValue_eq_ok.2 ⟨type, _, _, w, _, htype' _ _ (.cons _ _ _),
        expect_eq_ok.2 ⟨_, _, rfl⟩, hw' size' _ (.cons _ _ _), expect_eq_ok.2 ⟨_, _, rfl⟩, ?_⟩
      simp
    · rw [read_of_startsAtom hstarts] at h
      obtain ⟨taken, rfl, hne, htaken⟩ := atomValue_local (mapError_eq_ok.1 h)
      refine ⟨taken, rfl, fun size' rest' hrest' => ?_⟩
      rw [read_of_startsAtom (hstarts.append hne hrest')]
      exact mapError_eq_ok.2 (htaken size' rest' hrest')

theorem length_lt_of_read {limit depth : Nat} {v : Value}
    (h : read size limit depth awaited ls = .ok (v, rest)) : rest.length < ls.length := by
  obtain ⟨taken, rfl, hlocal⟩ := read_local h
  cases taken with
  | nil =>
    -- otherwise a value could be read where there is nothing
    have hnil := hlocal 0 [] (.nil rest)
    cases depth <;> cases hnil
  | cons l taken =>
    rw [List.length_append, List.length_cons]
    omega

end Value

end TestSynth
