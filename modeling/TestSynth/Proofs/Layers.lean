import TestSynth.Error
import TestSynth.Proofs.Lexing
import TestSynth.Proofs.Denotation

/-!
# Layers of a reading

A reading that succeeds is put together from the readings of its layers, and each of them takes what
it reads from the front of the lexemes.

* `Value.parse_mono` : a text that can be read is read as the same value if more layers are allowed.
* `Value.isNumbered_of_completed` : only numbered registers are defined inside a value, and inside
  what was read of a text that is broken further on.
-/

namespace TestSynth

namespace Value

variable {size limit limit' depth depth' opened : Nat} {opener name : String} {token : Token}
  {awaited : Awaited} {inner : Reader} {ls rest : List Lexeme} {v : Value}

/-! ### What a layer consists of -/

theorem bind_eq_ok {ε α β : Type} {x : Except ε α} {f : α → Except ε β} {b : β} :
    x >>= f = .ok b ↔ ∃ a, x = .ok a ∧ f a = .ok b :=
  ⟨bind_ok, fun ⟨a, ha, h⟩ => by rw [ha]; exact h⟩

theorem mapError_eq_ok {ε ε' α : Type} {x : Except ε α} {f : ε → ε'} {a : α} :
    x.mapError f = .ok a ↔ x = .ok a := by
  cases x with
  | error e => exact ⟨nofun, nofun⟩
  | ok b => exact ⟨fun h => by cases h; rfl, fun h => by cases h; rfl⟩

theorem elementValue_eq_ok :
    elementValue inner size opened ls = .ok (v, rest) ↔
      ∃ base ls₁ index type ls₂ fields, inner .comma ls = .ok (base, ls₁) ∧
        elementTail size opened ls₁ = .ok (index, type, ls₂) ∧
        fieldNames size ls₂ = .ok (fields, rest) ∧ v = .element base index type fields := by
  simp only [elementValue, bind_eq_ok, mapError_eq_ok, Prod.exists, pure, Except.pure,
    Except.ok.injEq, Prod.mk.injEq]
  grind

theorem regionValue_eq_ok :
    regionValue inner size opened ls = .ok (v, rest) ↔
      ∃ w ls₁ ls₂ fields, inner .closeBrace ls = .ok (w, ls₁) ∧
        expect size Token.regionOpen.spelling opened .closeBrace ls₁ = .ok ls₂ ∧
        fieldNames size ls₂ = .ok (fields, rest) ∧ v = .region w fields := by
  simp only [regionValue, bind_eq_ok, mapError_eq_ok, Prod.exists, pure, Except.pure,
    Except.ok.injEq, Prod.mk.injEq]
  grind

theorem definitionValue_eq_ok :
    definitionValue inner size opened name ls = .ok (v, rest) ↔
      ∃ type ls₁ ls₂ w ls₃, raw "<" opened .comma ls = .ok (type, ls₁) ∧
        expect size "<" opened .comma ls₁ = .ok ls₂ ∧ inner .closeAngle ls₂ = .ok (w, ls₃) ∧
        expect size "<" opened .closeAngle ls₃ = .ok rest ∧
        v = .definition name type w
          (Lexeme.sourceText (ls₂.take (ls₂.length - ls₃.length))) := by
  simp only [definitionValue, bind_eq_ok, mapError_eq_ok, Prod.exists, pure, Except.pure,
    Except.ok.injEq, Prod.mk.injEq]
  grind

/-! ### More layers -/

/-- What can be read is read in the same way if more layers are allowed. -/
theorem read_mono (hdepth : depth ≤ depth') (h : read size limit depth awaited ls = .ok (v, rest)) :
    read size limit' depth' awaited ls = .ok (v, rest) := by
  induction depth generalizing depth' awaited ls v rest with
  | zero => cases h
  | succ depth ih =>
    obtain ⟨depth', rfl⟩ : ∃ k, depth' = k + 1 := ⟨depth' - 1, by omega⟩
    have hle : depth ≤ depth' := by omega
    unfold read at h
    split at h
    · cases h
    · obtain ⟨base, ls₁, index, type, ls₂, fields, hbase, htail⟩ := elementValue_eq_ok.1 h
      exact elementValue_eq_ok.2 ⟨base, ls₁, index, type, ls₂, fields, ih hle hbase, htail⟩
    · obtain ⟨w, ls₁, ls₂, fields, hw, htail⟩ := regionValue_eq_ok.1 h
      exact regionValue_eq_ok.2 ⟨w, ls₁, ls₂, fields, ih hle hw, htail⟩
    · obtain ⟨type, ls₁, ls₂, w, ls₃, htype, hcomma, hw, htail⟩ := definitionValue_eq_ok.1 h
      exact definitionValue_eq_ok.2 ⟨type, ls₁, ls₂, w, ls₃, htype, hcomma, ih hle hw, htail⟩
    · next hnil helement hregion hdefinition =>
      unfold read
      split
      · exact absurd rfl hnil
      · exact absurd rfl (helement _ _ _)
      · exact absurd rfl (hregion _ _ _)
      · exact absurd rfl (hdefinition _ _ _ _ _ _)
      · exact h

/-- **More layers do no harm**: a text that can be read is read as the same value. -/
theorem parse_mono {source : String} (hlimit : limit ≤ limit') (h : parse limit source = .ok v) :
    parse limit' source = .ok v := by
  obtain ⟨⟨w, rest⟩, hread, hrest⟩ := bind_ok h
  exact bind_eq_ok.2 ⟨(w, rest), read_mono hlimit hread, hrest⟩

/-! ### What is taken from the lexemes -/

theorem expect_suffix (h : expect size opener opened token ls = .ok rest) : rest <:+ ls := by
  cases ls with
  | nil => cases h
  | cons l ls =>
    rw [expect] at h
    split at h
    · cases h
      exact List.suffix_cons ..
    · cases h

theorem takeRaw_suffix {nesting : Nat} {taken : List Lexeme}
    (h : takeRaw awaited nesting ls = some (taken, rest)) : rest <:+ ls := by
  induction ls generalizing nesting taken with
  | nil => cases h
  | cons l ls ih =>
    rw [takeRaw] at h
    split at h
    · cases h
      exact List.suffix_rfl
    · obtain ⟨⟨taken, rest⟩, hls, heq⟩ := Option.map_eq_some_iff.1 h
      cases heq
      exact (ih hls).trans (List.suffix_cons l ls)

theorem raw_suffix {text : String} (h : raw opener opened awaited ls = .ok (text, rest)) :
    rest <:+ ls := by
  rw [raw] at h
  split at h
  · next htake =>
    cases h
    exact takeRaw_suffix htake
  · cases h

/-! ### Parts of a reading -/

/-- What was read as a value before the reading ended or failed. -/
def part? : Except Failure (Value × List Lexeme) → Option Value
  | .ok (v, _) => some v
  | .error failure => failure.completed

section Part

variable {α : Type}

theorem part?_bind {x : Except Failure α} {f : α → Except Failure (Value × List Lexeme)}
    (h : part? (x >>= f) = some v) :
    (∃ failure, x = .error failure ∧ failure.completed = some v) ∨
      ∃ a, x = .ok a ∧ part? (f a) = some v := by
  cases x with
  | error failure => exact .inl ⟨failure, rfl, h⟩
  | ok a => exact .inr ⟨a, rfl, h⟩

theorem part?_bind_mapError {x : Except ParseError α} {completed : Option Value}
    {f : α → Except Failure (Value × List Lexeme)}
    (h : part? (x.mapError (⟨completed, ·⟩) >>= f) = some v) :
    completed = some v ∨ ∃ a, x = .ok a ∧ part? (f a) = some v := by
  cases x with
  | error e => exact .inl h
  | ok a => exact .inr ⟨a, rfl, h⟩

end Part

theorem exists_part_of_elementValue (h : part? (elementValue inner size opened ls) = some v) :
    ∃ w, part? (inner .comma ls) = some w ∧ v.definitions = w.definitions := by
  unfold elementValue at h
  obtain ⟨failure, hinner, hv⟩ | ⟨⟨base, ls₁⟩, hinner, h⟩ := part?_bind h
  · exact ⟨v, by rw [hinner, part?, hv], rfl⟩
  refine ⟨base, by rw [hinner, part?], ?_⟩
  -- whatever fails behind the base, the part is the base or an element of it
  obtain hv | ⟨⟨index, type, ls₂⟩, -, h⟩ := part?_bind_mapError h
  · rw [Option.some.inj hv]
  obtain hv | ⟨⟨fields, rest⟩, -, h⟩ := part?_bind_mapError h
  · rw [← Option.some.inj hv, definitions]
  · rw [← Option.some.inj h, definitions]

theorem exists_part_of_regionValue (h : part? (regionValue inner size opened ls) = some v) :
    ∃ w, part? (inner .closeBrace ls) = some w ∧ v.definitions = w.definitions := by
  unfold regionValue at h
  obtain ⟨failure, hinner, hv⟩ | ⟨⟨w, ls₁⟩, hinner, h⟩ := part?_bind h
  · exact ⟨v, by rw [hinner, part?, hv], rfl⟩
  refine ⟨w, by rw [hinner, part?], ?_⟩
  obtain hv | ⟨ls₂, -, h⟩ := part?_bind_mapError h
  · rw [Option.some.inj hv]
  obtain hv | ⟨⟨fields, rest⟩, -, h⟩ := part?_bind_mapError h
  · rw [Option.some.inj hv]
  · rw [← Option.some.inj h, definitions]

/-- All definitions in a part of a definition are the definition itself or stand in a part of what
is defined. -/
theorem exists_part_of_definitionValue
    (h : part? (definitionValue inner size opened name ls) = some v) :
    ∃ ls' w, ls' <:+ ls ∧ part? (inner .closeAngle ls') = some w ∧
      ∀ x ∈ v.definitions, x.name = name ∨ x ∈ w.definitions := by
  unfold definitionValue at h
  obtain hv | ⟨⟨type, ls₁⟩, htype, h⟩ := part?_bind_mapError h
  · cases hv
  obtain hv | ⟨ls₂, hcomma, h⟩ := part?_bind_mapError h
  · cases hv
  have hsuffix : ls₂ <:+ ls := (expect_suffix hcomma).trans (raw_suffix htype)
  obtain ⟨failure, hinner, hv⟩ | ⟨⟨w, ls₃⟩, hinner, h⟩ := part?_bind h
  · exact ⟨ls₂, v, hsuffix, by rw [hinner, part?, hv], fun x hx => .inr hx⟩
  refine ⟨ls₂, w, hsuffix, by rw [hinner, part?], ?_⟩
  obtain hv | ⟨rest, -, h⟩ := part?_bind_mapError h
  · rw [Option.some.inj hv]
    exact fun x hx => .inr hx
  · rw [← Option.some.inj h, definitions]
    intro x hx
    rcases List.mem_cons.1 hx with rfl | hx
    · exact .inl rfl
    · exact .inr hx

theorem definitions_of_atomValue
    (h : part? ((atomValue size awaited ls).mapError (⟨none, ·⟩)) = some v) :
    v.definitions = [] := by
  simp only [atomValue] at h
  split at h
  · cases h
  · split at h
    · cases h
    · cases h
      split <;> rfl

/-- **The symbols that are defined inside a value** stand in the text as registers, also in what
was read of a text that is broken further on. -/
theorem mem_of_part (h : part? (read size limit depth awaited ls) = some v) :
    ∀ x ∈ v.definitions, Token.register x.name ∈ ls.map Lexeme.token := by
  have hmono {ls ls' : List Lexeme} (hsuffix : ls <:+ ls') {t : Token}
      (ht : t ∈ ls.map Lexeme.token) : t ∈ ls'.map Lexeme.token :=
    List.map_subset _ hsuffix.subset ht
  induction depth generalizing awaited ls v with
  | zero => cases h
  | succ depth ih =>
    unfold read at h
    split at h
    · cases h
    · obtain ⟨w, hw, hsame⟩ := exists_part_of_elementValue h
      rw [hsame]
      exact fun x hx => hmono (List.suffix_cons _ _) (ih hw x hx)
    · obtain ⟨w, hw, hsame⟩ := exists_part_of_regionValue h
      rw [hsame]
      exact fun x hx => hmono (List.suffix_cons _ _) (ih hw x hx)
    · obtain ⟨ls', w, hsuffix, hw, hnames⟩ := exists_part_of_definitionValue h
      intro x hx
      rcases hnames x hx with rfl | hx
      · exact List.mem_cons_self
      · exact List.mem_cons_of_mem _ (List.mem_cons_of_mem _ (hmono hsuffix (ih hw x hx)))
    · rw [definitions_of_atomValue h]
      exact fun x hx => absurd hx List.not_mem_nil

theorem completed?_parse (limit : Nat) (source : String) :
    completed? (parse limit source) =
      part? (read source.utf8ByteSize limit limit .nothing (Lexeme.ofText source)) := by
  simp only [parse]
  cases read source.utf8ByteSize limit limit .nothing (Lexeme.ofText source) with
  | error failure => rfl
  | ok value =>
    obtain ⟨v, rest⟩ := value
    cases rest <;> rfl

end Value

/-! ### Registers -/

theorem Token.isNumbered_of_plain {run rest : List Char} {name : String}
    (h : (Token.ofRun.plain run rest).1 = .register name) :
    Token.isNumbered "reg_$".toList name.toList = true := by
  unfold Token.ofRun.plain at h
  split at h
  · next hrun =>
    cases h
    rwa [show (String.ofList run).toList = run from String.toList_ofList]
  · split at h <;> cases h

theorem Token.isNumbered_of_scan? {s rest : List Char} {name : String}
    (h : Token.scan? s = some (.register name, rest)) :
    Token.isNumbered "reg_$".toList name.toList = true := by
  rcases Token.scan?_cases h with ⟨hmark, -⟩ | ⟨_, _, -, -, hrun⟩
  · cases hmark
  · unfold Token.ofRun at hrun
    have hplain (p : Token × List Char) (hp : p = (.register name, rest)) :
        p.1 = .register name := by rw [hp]
    split at hrun
    · split at hrun
      · cases hrun
      · split at hrun
        · cases hrun
        · exact Token.isNumbered_of_plain (hplain _ hrun)
    · exact Token.isNumbered_of_plain (hplain _ hrun)

theorem Lexeme.isNumbered_of_mem {pos : Nat} {s : List Char} {name : String}
    (h : Token.register name ∈ (Lexeme.readFrom pos s).map Lexeme.token) :
    Token.isNumbered "reg_$".toList name.toList = true := by
  induction pos, s using Lexeme.readFrom_induction with
  | blank pos s hs =>
    rw [Lexeme.readFrom_of_blank hs] at h
    cases h
  | token pos s t rest hs ih =>
    rw [Lexeme.readFrom_of_scan? hs, List.map_cons, List.mem_cons] at h
    rcases h with rfl | h
    · exact Token.isNumbered_of_scan? hs
    · exact ih h

/-- **Only numbered registers are defined inside a value**, and inside what was read of a text that
is no value. -/
theorem Value.isNumbered_of_completed {limit : Nat} {source : String} {v : Value}
    (h : Value.completed? (Value.parse limit source) = some v) {x : Definition}
    (hx : x ∈ v.definitions) : Token.isNumbered "reg_$".toList x.name.toList = true := by
  rw [Value.completed?_parse] at h
  exact Lexeme.isNumbered_of_mem (Value.mem_of_part h x hx)

theorem Value.isNumbered_of_parse {limit : Nat} {source : String} {v : Value}
    (h : Value.parse limit source = .ok v) {x : Definition} (hx : x ∈ v.definitions) :
    Token.isNumbered "reg_$".toList x.name.toList = true :=
  Value.isNumbered_of_completed (by rw [h]; rfl) hx

end TestSynth
