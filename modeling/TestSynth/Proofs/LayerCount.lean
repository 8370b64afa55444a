import TestSynth.Proofs.Faults
import TestSynth.Proofs.Reading

/-!
# Layers of a text

A value is read in layers, the outermost first, and the innermost is an atom.  Where one layer ends
and the next begins is seen from the lexemes alone, so the layers of a text are counted before it is
read, and even if it cannot be read.  The limit for the depth only matters as to whether there are
more layers than it allows.

* `Value.layers` : how many layers are inside each other.
* `Value.read_of_lt_layers`, `Value.read_of_layers_le` : a reading fails for the depth if there are
  too many, and is as without any limit otherwise.
* `Value.parse_of_lt_layersOf`, `Value.shallow_parse` : so the layers of a text are the least limit
  under which it does not fail for its depth.
* `Value.layersOf_spelling` : the text of a tree has the layers of the tree.
-/

namespace TestSynth

/-- Values are nested too deep. -/
def ParseError.isTooDeep : ParseError → Bool
  | .tooDeep .. => true
  | _ => false

namespace Value

/-! ### Layers of a text -/

/-- What is defined behind the angle bracket of a definition. -/
def defined? (ls : List Lexeme) : Option (List Lexeme) :=
  (takeRaw .comma 0 ls).bind fun (_, rest) => rest.head?.bind fun l =>
    if l.token = .comma then some rest.tail else none

/-- What the outermost layer is around, if it is not an atom. -/
def inner? : List Lexeme → Option (List Lexeme)
  | ⟨_, .elementOpen, _⟩ :: rest => some rest
  | ⟨_, .regionOpen, _⟩ :: rest => some rest
  | ⟨_, .register _, _⟩ :: ⟨_, .openAngle, _⟩ :: rest => defined? rest
  | _ => none

theorem defined?_eq_some_iff {opener : String} {opened size : Nat} {ls rest : List Lexeme} :
    defined? ls = some rest ↔ ∃ type ls₁, raw opener opened .comma ls = .ok (type, ls₁) ∧
      expect size opener opened .comma ls₁ = .ok rest := by
  cases htake : takeRaw .comma 0 ls with
  | none => simp [defined?, raw, htake]
  | some taken =>
    obtain ⟨taken, ls₁⟩ := taken
    cases ls₁ with
    | nil => simp [defined?, raw, htake, expect]
    | cons l ls₁ =>
      by_cases hcomma : l.token = .comma <;>
        simp [defined?, raw, htake, expect, hcomma, and_assoc]

theorem suffix_of_defined? {ls rest : List Lexeme} (h : defined? ls = some rest) : rest <:+ ls := by
  obtain ⟨type, ls₁, htype, hcomma⟩ := (@defined?_eq_some_iff "<" 0 0 _ _).1 h
  exact (expect_suffix hcomma).trans (raw_suffix htype)

theorem length_inner?_lt {ls rest : List Lexeme} (h : inner? ls = some rest) :
    rest.length < ls.length := by
  unfold inner? at h
  split at h
  · cases h
    exact Nat.lt_succ_self _
  · cases h
    exact Nat.lt_succ_self _
  · have := (suffix_of_defined? h).length_le
    simp only [List.length_cons]
    omega
  · cases h

/-- The number of layers inside each other, with the atom or whatever stands in its place. -/
def layers (ls : List Lexeme) : Nat :=
  match h : inner? ls with
  | some rest =>
    have := length_inner?_lt h
    layers rest + 1
  | none => 1
termination_by ls.length

variable {size limit limit' depth depth' : Nat} {awaited : Awaited} {ls rest : List Lexeme}

theorem layers_of_inner? (h : inner? ls = some rest) : layers ls = layers rest + 1 := by
  rw [layers]
  split
  · next h' => rw [h] at h'; cases h'; rfl
  · next h' => rw [h] at h'; cases h'

theorem layers_of_not_inner? (h : inner? ls = none) : layers ls = 1 := by
  rw [layers]
  split
  · next h' => rw [h] at h'; cases h'
  · rfl

/-- What holds of lexemes whose outermost layer is the only one, and of a layer around lexemes of
which it holds, holds of all lexemes. -/
theorem layers_induction {motive : List Lexeme → Prop}
    (single : ∀ ls, inner? ls = none → motive ls)
    (around : ∀ ls rest, inner? ls = some rest → motive rest → motive ls) (ls : List Lexeme) :
    motive ls := by
  induction hn : ls.length using Nat.strongRecOn generalizing ls with
  | ind n ih =>
    cases h : inner? ls with
    | none => exact single ls h
    | some rest => exact around ls rest h (ih _ (hn ▸ length_inner?_lt h) rest rfl)

/-! ### Failures for the depth -/

/-- If the reading fails, it is not for the depth. -/
def Shallow {α : Type} (r : Except Failure α) : Prop :=
  ∀ failure, r = .error failure → failure.error.isTooDeep = false

section Shallow

variable {α β : Type} {opened : Nat} {e : ParseError}

theorem Shallow.ok (a : α) : Shallow (.ok a) := nofun

theorem Shallow.bind {x : Except Failure α} {f : α → Except Failure β} (hx : Shallow x)
    (hf : ∀ a, Shallow (f a)) : Shallow (x >>= f) := by
  intro failure h
  obtain h | ⟨a, -, h⟩ := bind_eq_error.1 h
  · exact hx failure h
  · exact hf a failure h

theorem Shallow.mapError {x : Except ParseError α} (h : ∀ e, x = .error e → e.isTooDeep = false)
    (completed : Option Value) : Shallow (x.mapError (⟨completed, ·⟩)) := by
  intro failure hfail
  obtain ⟨e, he, rfl⟩ := mapError_eq_error.1 hfail
  exact h e he

theorem isTooDeep_expect {opener : String} {token : Token}
    (h : expect size opener opened token ls = .error e) : e.isTooDeep = false := by
  obtain ⟨-, rfl⟩ | ⟨-, rfl⟩ := expect_eq_error h <;> rfl

theorem isTooDeep_raw {opener : String} (h : raw opener opened awaited ls = .error e) :
    e.isTooDeep = false := by
  rw [raw_eq_error h]
  rfl

theorem isTooDeep_elementTail (h : elementTail size opened ls = .error e) :
    e.isTooDeep = false := by
  obtain h | ⟨ls₁, -, h⟩ := bind_eq_error.1 h
  · exact isTooDeep_expect h
  obtain h | ⟨_, -, h⟩ := bind_eq_error.1 h
  · exact isTooDeep_raw h
  obtain h | ⟨ls₃, -, h⟩ := bind_eq_error.1 h
  · exact isTooDeep_expect h
  obtain h | ⟨_, -, h⟩ := bind_eq_error.1 h
  · exact isTooDeep_raw h
  obtain h | ⟨ls₅, -, h⟩ := bind_eq_error.1 h
  · exact isTooDeep_expect h
  obtain h | ⟨_, -, h⟩ := bind_eq_error.1 h
  · rw [index_eq_error h]
    rfl
  · cases h

theorem isTooDeep_atomValue (h : atomValue size awaited ls = .error e) : e.isTooDeep = false := by
  simp only [atomValue] at h
  split at h
  · cases h
    rfl
  · split at h
    · cases h
      rfl
    · cases h

theorem shallow_fieldsBehind (completed : Option Value) (value : List String → Value) (size : Nat)
    (ls : List Lexeme) : Shallow (fieldsBehind completed value size ls) := by
  refine (Shallow.mapError (fun e he => ?_) completed).bind fun _ => .ok _
  obtain ⟨_, _, _, _, -, -, -, -, rfl⟩ := fieldNames_eq_error he
  rfl

theorem shallow_elementBehind (opened : Nat) (base : Value) (size : Nat) (ls : List Lexeme) :
    Shallow (elementBehind opened base size ls) :=
  (Shallow.mapError (fun _ => isTooDeep_elementTail) _).bind fun _ => shallow_fieldsBehind _ _ _ _

theorem shallow_regionBehind (opened : Nat) (value : Value) (size : Nat) (ls : List Lexeme) :
    Shallow (regionBehind opened value size ls) :=
  (Shallow.mapError (fun _ => isTooDeep_expect) _).bind fun _ => shallow_fieldsBehind _ _ _ _

theorem shallow_definitionBehind (opened : Nat) (name type source : String) (value : Value)
    (size : Nat) (ls : List Lexeme) :
    Shallow (definitionBehind opened name type source value size ls) :=
  (Shallow.mapError (fun _ => isTooDeep_expect) _).bind fun _ => .ok _

end Shallow

/-- Only what is inside the outermost layer can be too deep, if there is room for the layer. -/
theorem read_of_inner? (size : Nat) (awaited : Awaited) (h : inner? ls = some rest) :
    ∃ awaited' f, (∀ a, Shallow (f a)) ∧ ∀ limit depth,
      read size limit (depth + 1) awaited ls = read size limit depth awaited' rest >>= f := by
  rcases layer_cases ls with rfl | ⟨gap, start, ls, rfl⟩ | ⟨gap, start, ls, rfl⟩ |
    ⟨gap, name, start, gap₁, start₁, ls, rfl⟩ | ⟨t, ht, helement, hregion, hdefinition⟩
  · cases h
  · cases h
    exact ⟨_, fun b => elementBehind start b.1 size b.2,
      fun _ => shallow_elementBehind _ _ _ _, fun _ _ => rfl⟩
  · cases h
    exact ⟨_, fun b => regionBehind start b.1 size b.2,
      fun _ => shallow_regionBehind _ _ _ _, fun _ _ => rfl⟩
  · obtain ⟨type, ls₁, htype, hcomma⟩ := (@defined?_eq_some_iff "<" start size _ _).1 h
    refine ⟨.closeAngle, fun b => definitionBehind start name type
      (Lexeme.sourceText (rest.take (rest.length - b.2.length))) b.1 size b.2,
      fun _ => shallow_definitionBehind _ _ _ _ _ _ _, fun limit depth => ?_⟩
    show definitionValue _ _ _ _ ls = _
    rw [definitionValue, htype]
    show (expect size "<" start .comma ls₁).mapError _ >>= _ = _
    rw [hcomma]
    rfl
  · unfold inner? at h
    split at h
    · exact absurd (Option.some.inj ht).symm helement
    · exact absurd (Option.some.inj ht).symm hregion
    · obtain rfl := Option.some.inj ht
      exact absurd rfl (hdefinition rfl)
    · cases h

/-- A reading of a single layer does not depend on the limit. -/
theorem read_of_not_inner? (size : Nat) (awaited : Awaited) (h : inner? ls = none) :
    ∃ r, Shallow r ∧ ∀ limit depth, read size limit (depth + 1) awaited ls = r := by
  rcases layer_cases ls with rfl | ⟨gap, start, ls, rfl⟩ | ⟨gap, start, ls, rfl⟩ |
    ⟨gap, name, start, gap₁, start₁, ls, rfl⟩ | hstarts
  · exact ⟨.error ⟨none, .unexpectedEnd⟩, fun _ hfail => by cases hfail; rfl, fun _ _ => rfl⟩
  · cases h
  · cases h
  · -- the type or the comma behind it is missing
    cases htype : raw "<" start .comma ls with
    | error e =>
      refine ⟨.error ⟨none, e⟩, fun _ hfail => ?_, fun limit depth => ?_⟩
      · cases hfail
        exact isTooDeep_raw htype
      · show definitionValue _ _ _ _ ls = _
        rw [definitionValue, htype]
        rfl
    | ok behind =>
      obtain ⟨type, ls₁⟩ := behind
      cases hcomma : expect size "<" start .comma ls₁ with
      | error e =>
        refine ⟨.error ⟨none, e⟩, fun _ hfail => ?_, fun limit depth => ?_⟩
        · cases hfail
          exact isTooDeep_expect hcomma
        · show definitionValue _ _ _ _ ls = _
          rw [definitionValue, htype]
          show (expect size "<" start .comma ls₁).mapError _ >>= _ = _
          rw [hcomma]
          rfl
      | ok ls₂ =>
        have hinner : inner? (⟨gap, .register name, start⟩ :: ⟨gap₁, .openAngle, start₁⟩ :: ls) =
            some ls₂ := defined?_eq_some_iff.2 ⟨type, ls₁, htype, hcomma⟩
        rw [h] at hinner
        cases hinner
  · exact ⟨_, .mapError (fun _ => isTooDeep_atomValue) none,
      fun _ _ => read_of_startsAtom hstarts⟩

/-- **With too many layers** a reading fails for the depth, before anything of it is complete. -/
theorem read_of_lt_layers (h : depth < layers ls) :
    read size limit depth awaited ls = .error ⟨none, .tooDeep limit limit⟩ := by
  induction depth generalizing awaited ls with
  | zero => rfl
  | succ depth ih =>
    cases hinner : inner? ls with
    | none =>
      rw [layers_of_not_inner? hinner] at h
      omega
    | some rest =>
      rw [layers_of_inner? hinner] at h
      obtain ⟨_, f, -, hread⟩ := read_of_inner? size awaited hinner
      rw [hread, ih (by omega)]
      rfl

/-- **Otherwise** it does not, and the depth that is left over does not matter. -/
theorem read_of_layers_le (size : Nat) (awaited : Awaited) (ls : List Lexeme) :
    ∃ r, Shallow r ∧ ∀ limit depth, layers ls ≤ depth → read size limit depth awaited ls = r := by
  induction ls using layers_induction generalizing awaited with
  | single ls h =>
    obtain ⟨r, hr, hread⟩ := read_of_not_inner? size awaited h
    refine ⟨r, hr, fun limit depth hdepth => ?_⟩
    rw [layers_of_not_inner? h] at hdepth
    obtain ⟨depth, rfl⟩ : ∃ k, depth = k + 1 := ⟨depth - 1, by omega⟩
    exact hread limit depth
  | around ls rest h ih =>
    obtain ⟨awaited', f, hf, hread⟩ := read_of_inner? size awaited h
    obtain ⟨r, hr, hrest⟩ := ih awaited'
    refine ⟨r >>= f, hr.bind hf, fun limit depth hdepth => ?_⟩
    rw [layers_of_inner? h] at hdepth
    obtain ⟨depth, rfl⟩ : ∃ k, depth = k + 1 := ⟨depth - 1, by omega⟩
    rw [hread, hrest limit depth (by omega)]

/-! ### Layers of a value -/

/-- The number of layers of a text. -/
def layersOf (source : String) : Nat := layers (Lexeme.ofText source)

variable {source : String}

theorem parse_of_lt_layersOf (h : limit < layersOf source) :
    parse limit source = .error ⟨none, .tooDeep limit limit⟩ := by
  rw [parse, read_of_lt_layers h]
  rfl

theorem parse_congr (h : layersOf source ≤ limit) (h' : layersOf source ≤ limit') :
    parse limit source = parse limit' source := by
  obtain ⟨r, -, hread⟩ := read_of_layers_le source.utf8ByteSize .nothing (Lexeme.ofText source)
  rw [parse, parse, hread limit limit h, hread limit' limit' h']

theorem shallow_parse (h : layersOf source ≤ limit) : Shallow (parse limit source) := by
  obtain ⟨r, hr, hread⟩ := read_of_layers_le source.utf8ByteSize .nothing (Lexeme.ofText source)
  intro failure hfail
  rw [parse, hread limit limit h] at hfail
  obtain hfail | ⟨⟨value, rest⟩, -, hend⟩ := bind_eq_error.1 hfail
  · exact hr failure hfail
  · cases rest with
    | nil => cases hend
    | cons l rest =>
      cases hend
      rfl

/-! ### Layers of a tree -/

theorem layers_pos (ls : List Lexeme) : 0 < layers ls := by
  cases h : inner? ls with
  | none => rw [layers_of_not_inner? h]; exact Nat.one_pos
  | some rest => rw [layers_of_inner? h]; exact Nat.succ_pos _

theorem layers_le_of_read {v : Value} (h : read size limit depth awaited ls = .ok (v, rest)) :
    layers ls ≤ depth := by
  by_contra hlt
  rw [read_of_lt_layers (by omega)] at h
  cases h

theorem layers_readFrom (v : ValueTree) (hstop : awaited.Stops rest) (pos : Nat) :
    layers (Lexeme.readFrom pos v.spelling.toList ++ rest) = v.depth := by
  induction v generalizing awaited rest pos with
  | atom a => exact Nat.le_antisymm (layers_le_of_read (read_atom a hstop 0 1 0 pos)) (layers_pos _)
  | element base index type fields ih =>
    obtain ⟨base', comma', index', comma'', type', brace', fields', hlayout⟩ :=
      readFrom_element pos rest base index type fields
    rw [hlayout, layers_of_inner? rfl, ih (Awaited.stops_comma _ _)]
    rfl
  | region inner fields ih =>
    obtain ⟨inner', brace', fields', hlayout⟩ := readFrom_region pos rest inner fields
    rw [hlayout, layers_of_inner? rfl, ih (Awaited.stops_closeBrace _ _)]
    rfl
  | definition name type inner ih =>
    obtain ⟨gap, name', open', type', comma', inner', close', hlayout⟩ :=
      readFrom_definition pos rest name type inner
    have hadmits : Awaited.comma.Admits 0 (Token.ofText type.text) :=
      ⟨type.balanced, fun _ => type.commaFree, nofun⟩
    have hinner (more : List Lexeme) : inner? (⟨gap, .register name.text, name'⟩ ::
        ⟨"", .openAngle, open'⟩ :: (Lexeme.readFrom type' type.text.toList ++
          ⟨"", .comma, comma'⟩ :: more)) = some more :=
      defined?_eq_some_iff.2 ⟨type.text, _, raw_append type.trimmed hadmits
        (Awaited.stops_comma _ _) "<" 0 type', @expect_cons 0 0 "<" .comma _ _ rfl⟩
    rw [hlayout, layers_of_inner? (hinner _), ih (Awaited.stops_closeAngle _ _)]
    rfl

/-- **The text of a tree has the layers of the tree.** -/
theorem layersOf_spelling (v : ValueTree) : layersOf v.spelling = v.depth := by
  rw [← layers_readFrom v Awaited.stops_nothing 0, List.append_nil]
  rfl

end Value

end TestSynth
