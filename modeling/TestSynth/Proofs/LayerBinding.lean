import TestSynth.Proofs.CursorSteps
import TestSynth.Proofs.Faults
import TestSynth.Proofs.Runs

/-!
# Binding layer by layer

Each layer of a value is read and bound in one pass: first the value inside, then what is behind it.
Whatever is read behind a value, the part that was complete refers to the same symbol.  So the
effects come in the same order as if the whole text had been read before, also if it is broken
further on.

* `OnePass.bindPart` : what a reading is bound to, with the lexemes behind it.
* `OnePass.bindPart_bind` : a layer is bound from the inside.
* `OnePass.readsAs_element`, `OnePass.readsAs_region`, `OnePass.readsAs_definition`,
  `OnePass.readsAs_atom` : the layers answer that, if the values inside do, and leave a trail.
-/

namespace TestSynth

namespace OnePass

open Value (Awaited Reader atomValue bindElement definitionBehind elementBehind fieldNames
  fieldsBehind part? regionBehind takeAtom)

variable {source : String} {d : Declarations} {resolve : String → Tables → Outcome Unit}
  {s s' : State} {t : Tables}

/-! ### Binding what was read -/

section Part

variable (d resolve)

/-- What was read is bound, or the part of it that was complete. -/
def bindSettled :
    Except Value.Failure (Value × List Lexeme) → Tables → Outcome (Bound × List Lexeme)
  | .ok (v, rest), t => (.ok ((v.bind d t).1, rest), (v.bind d t).2)
  | .error ⟨some v, e⟩, t => (.error e, (v.bind d t).2)
  | .error ⟨none, e⟩, t => (.error e, t)

/-- What was read is bound after what it refers to. -/
def bindPart (reading : Except Value.Failure (Value × List Lexeme)) (t : Tables) :
    Outcome (Bound × List Lexeme) :=
  match (part? reading).elim (.ok (), t) (Declarations.follow resolve · t) with
  | (.error e, t) => (.error e, t)
  | (.ok (), t) => bindSettled d reading t

/-- The outcome is that of binding the reading without the lexemes behind it. -/
theorem bindReading_map_fst (reading : Except Value.Failure (Value × List Lexeme)) (t : Tables) :
    d.bindReading resolve (reading.map Prod.fst) t =
      ((bindPart d resolve reading t).1.map Prod.fst, (bindPart d resolve reading t).2) := by
  unfold bindPart Declarations.bindReading
  rcases reading with ⟨_ | v, e⟩ | ⟨v, rest⟩
  · rfl
  · simp only [Except.map, part?, Option.elim_some, Declarations.follow]
    generalize v.referent?.elim (Except.ok (), t) _ = outcome
    obtain ⟨_ | _, _⟩ := outcome <;> rfl
  · simp only [Except.map, part?, Option.elim_some, Declarations.follow]
    generalize v.referent?.elim (Except.ok (), t) _ = outcome
    obtain ⟨_ | _, _⟩ := outcome <;> rfl

theorem bindPart_error (failure : Value.Failure) (t : Tables) :
    ∃ e t', bindPart d resolve (.error failure) t = (.error e, t') := by
  rw [bindPart]
  generalize (part? (.error failure)).elim (.ok (), t) (Declarations.follow resolve · t) = outcome
  obtain ⟨completed, e⟩ := failure
  obtain ⟨_ | _, _⟩ := outcome
  · exact ⟨_, _, rfl⟩
  · cases completed <;> exact ⟨_, _, rfl⟩

variable {d resolve}

/-- **A layer is bound from the inside**: what is read behind a value changes nothing of what is
resolved for it. -/
theorem bindPart_bind {x : Except Value.Failure (Value × List Lexeme)}
    {f : Value × List Lexeme → Except Value.Failure (Value × List Lexeme)}
    {g : Bound → List Lexeme → Tables → Outcome (Bound × List Lexeme)}
    (hpart : ∀ v rest, ∃ w, part? (f (v, rest)) = some w ∧ w.referent? = v.referent?)
    (hsettled : ∀ v rest t,
      bindSettled d (f (v, rest)) t = g (v.bind d t).1 rest (v.bind d t).2) (t : Tables) :
    bindPart d resolve (x >>= f) t = andThen (bindPart d resolve x t) g := by
  match x with
  | .error failure =>
    obtain ⟨e, t', h⟩ := bindPart_error d resolve failure t
    show bindPart d resolve (.error failure) t = _
    rw [h]
    rfl
  | .ok (v, rest) =>
    obtain ⟨w, hw, href⟩ := hpart v rest
    have hfollow : Declarations.follow resolve w t = Declarations.follow resolve v t := by
      rw [Declarations.follow, Declarations.follow, href]
    show bindPart d resolve (f (v, rest)) t = _
    rw [bindPart, bindPart, hw, part?, Option.elim_some, Option.elim_some, hfollow]
    cases Declarations.follow resolve v t with
    | mk outcome t' =>
      cases outcome with
      | error e => rfl
      | ok _ => exact hsettled v rest t'

end Part

/-! ### Fields -/

/-- A value with the fields that are taken from it. -/
def withFields (d : Declarations) (b : Bound) (viaPointer : Bool) (record : Option String)
    (fields : List String) : Bound :=
  if fields.isEmpty then b else ⟨d.takeFields b.expr viaPointer record fields, none, none⟩

theorem bind_element (base : Value) (index : Int) (type : String) (fields : List String)
    (t : Tables) :
    (Value.element base index type fields).bind d t =
      let (b, t) := bindElement d (base.bind d t).1 index type (base.bind d t).2
      (withFields d b (type.toList.contains '*') (some type) fields, t) := by
  simp only [Value.bind, withFields]
  split <;> rfl

theorem bind_region (inner : Value) (fields : List String) (t : Tables) :
    (Value.region inner fields).bind d t =
      let (b, t) := inner.bind d t
      (withFields d b ((d.typeOf? t b).any d.isPointerType) (d.typeOf? t b) fields, t) := by
  simp only [Value.bind, withFields]
  split <;> rfl

/-- The fields of a value are read as their names. -/
theorem readsAs_fields (b : Bound) (viaPointer : Bool) (record : Option String) (s : State) :
    ReadsAs source (fields source d b viaPointer record) s
      ((fieldNames source.utf8ByteSize (s.rest source)).map
        fun (names, rest) => (withFields d b viaPointer record names, rest), s.tables) := by
  have heq : fields source d b viaPointer record s =
      (if s.token? source 0 = some .dot then do
        let e ← passFields source d b.expr viaPointer record
        return ⟨e, none, none⟩
      else return b : Action Bound) s := rfl
  by_cases hdot : s.token? source 0 = some .dot
  · rw [if_pos hdot] at heq
    have hread : ReadsAs source (do
        let e ← passFields source d b.expr viaPointer record
        return (⟨e, none, none⟩ : Bound)) s _ :=
      (readsAs_passFields b.expr viaPointer record s).bind
        (g := fun e rest t => (.ok (⟨e, none, none⟩, rest), t)) fun e s' _ _ => .pure _ s'
    cases hnames : fieldNames source.utf8ByteSize (s.rest source) with
    | error e =>
      rw [hnames] at hread
      exact hread.of_eq heq
    | ok named =>
      obtain ⟨names, rest⟩ := named
      have hne : names.isEmpty = false := by
        cases hls : s.rest source with
        | nil =>
          rw [State.token?_of_rest_nil hls] at hdot
          cases hdot
        | cons l ls =>
          rw [State.token?_of_rest_cons hls] at hdot
          exact Value.fieldNames_ne_nil (Option.some.inj hdot) (hls ▸ hnames)
      rw [hnames] at hread
      show ReadsAs source _ s (.ok (withFields d b viaPointer record names, rest), s.tables)
      rw [withFields, if_neg (by rw [hne]; decide)]
      exact hread.of_eq heq
  · have hnames : fieldNames source.utf8ByteSize (s.rest source) = .ok ([], s.rest source) :=
      Value.fieldNames_of_not_dot fun l hl htoken => by
        obtain ⟨ls, hls⟩ := List.head?_eq_some_iff.1 hl
        exact hdot (by rw [State.token?_of_rest_cons hls, htoken])
    rw [if_neg hdot] at heq
    rw [hnames]
    exact (ReadsAs.pure b s).of_eq heq

theorem part?_fieldsBehind {v w : Value} {value : List String → Value} (size : Nat)
    (ls : List Lexeme) (hv : v.referent? = w.referent?)
    (hvalue : ∀ names, (value names).referent? = w.referent?) :
    ∃ v', part? (fieldsBehind (some v) value size ls) = some v' ∧ v'.referent? = w.referent? := by
  rw [fieldsBehind]
  cases fieldNames size ls with
  | error e => exact ⟨v, rfl, hv⟩
  | ok named => exact ⟨value named.1, rfl, hvalue named.1⟩

theorem bindSettled_fieldsBehind {v : Value} {value : List String → Value} {b : Bound}
    {viaPointer : Bool} {record : Option String} {t' : Tables} (size : Nat) (ls : List Lexeme)
    (hv : (v.bind d t).2 = t')
    (hvalue : ∀ names, (value names).bind d t = (withFields d b viaPointer record names, t')) :
    bindSettled d (fieldsBehind (some v) value size ls) t =
      ((fieldNames size ls).map
        fun (names, rest) => (withFields d b viaPointer record names, rest), t') := by
  rw [fieldsBehind]
  cases fieldNames size ls with
  | error e => exact congrArg (Except.error e, ·) hv
  | ok named =>
    show (Except.ok (((value named.1).bind d t).1, _), ((value named.1).bind d t).2) = _
    rw [hvalue]
    rfl

/-! ### Layers -/

theorem readsAs_learn (f : Tables → Bound × Tables) (s : State) :
    ReadsAs source (learn f) s (.ok ((f s.tables).1, s.rest source), (f s.tables).2) :=
  .ok ⟨rfl, .learn s (f s.tables).2⟩ rfl rfl

section Element

variable (d) (size opened : Nat)

/-- What an element is bound to, of the base `b` with the given lexemes behind it. -/
def elementOf (b : Bound) (ls : List Lexeme) (t : Tables) : Outcome (Bound × List Lexeme) :=
  andThen ((Value.elementTail size opened ls).map
      fun (index, type, rest) => ((index, type), rest), t)
    fun (index, type) ls t =>
      let (b, t) := bindElement d b index type t
      ((fieldNames size ls).map fun (names, rest) =>
        (withFields d b (type.toList.contains '*') (some type) names, rest), t)

variable {d}

theorem bindPart_elementValue (reader : Reader) (ls : List Lexeme) (t : Tables) :
    bindPart d resolve (Value.elementValue reader size opened ls) t =
      andThen (bindPart d resolve (reader .comma ls) t) (elementOf d size opened) := by
  refine bindPart_bind (f := fun p => elementBehind opened p.1 size p.2)
    (fun v rest => ?_) (fun v rest t => ?_) t
  · simp only [elementBehind]
    cases Value.elementTail size opened rest with
    | error e => exact ⟨v, rfl, rfl⟩
    | ok tail => exact part?_fieldsBehind size tail.2.2 rfl fun _ => rfl
  · simp only [elementBehind, elementOf]
    cases Value.elementTail size opened rest with
    | error e => rfl
    | ok tail =>
      obtain ⟨index, type, rest⟩ := tail
      refine bindSettled_fieldsBehind size rest ?_ fun names => bind_element v index type names t
      rw [bind_element]

theorem readsAs_elementBehind (b : Bound) (s : State) :
    ReadsAs source (do
      let (index, type) ← elementTail source opened
      let b ← learn (bindElement d b index type)
      fields source d b (type.toList.contains '*') (some type)) s
      (elementOf d source.utf8ByteSize opened b (s.rest source) s.tables) :=
  (readsAs_elementTail opened s).bind fun (index, type) s₁ _ _ =>
    (readsAs_learn (bindElement d b index type) s₁).bind_ok fun s₂ hrest htables _ => by
      show ReadsAs source _ s₂ ((fieldNames _ (s₁.rest source)).map _,
        (bindElement d b index type s₁.tables).2)
      rw [← hrest, ← htables]
      exact readsAs_fields _ _ _ s₂

end Element

section Region

variable (d) (size opened : Nat)

/-- What a region is bound to, of the value `b` in it with the given lexemes behind it. -/
def regionOf (b : Bound) (ls : List Lexeme) (t : Tables) : Outcome (Bound × List Lexeme) :=
  andThen ((Value.expect size Token.regionOpen.spelling opened .closeBrace ls).map (((), ·)), t)
    fun _ ls t =>
      let declared := d.typeOf? t b
      ((fieldNames size ls).map fun (names, rest) =>
        (withFields d b (declared.any d.isPointerType) declared names, rest), t)

variable {d}

theorem bindPart_regionValue (reader : Reader) (ls : List Lexeme) (t : Tables) :
    bindPart d resolve (Value.regionValue reader size opened ls) t =
      andThen (bindPart d resolve (reader .closeBrace ls) t) (regionOf d size opened) := by
  refine bindPart_bind (f := fun p => regionBehind opened p.1 size p.2)
    (fun v rest => ?_) (fun v rest t => ?_) t
  · simp only [regionBehind]
    cases Value.expect size Token.regionOpen.spelling opened .closeBrace rest with
    | error e => exact ⟨v, rfl, rfl⟩
    | ok rest => exact part?_fieldsBehind size rest rfl fun _ => rfl
  · simp only [regionBehind, regionOf]
    cases Value.expect size Token.regionOpen.spelling opened .closeBrace rest with
    | error e => rfl
    | ok rest =>
      exact bindSettled_fieldsBehind size rest rfl fun names => bind_region v names t

theorem readsAs_regionBehind (b : Bound) (s : State) :
    ReadsAs source (do
      expectClose source .closeBrace Token.regionOpen.spelling opened
      let declared := d.typeOf? (← get).tables b
      fields source d b (declared.any d.isPointerType) declared) s
      (regionOf d source.utf8ByteSize opened b (s.rest source) s.tables) :=
  (readsAs_expectClose .closeBrace Token.regionOpen.spelling opened s).bind fun _ s₁ _ _ =>
    .of_get (readsAs_fields b _ _ s₁)

end Region

section Definition

variable (d) (size opened : Nat) (name : String)

/-- What a definition is bound to, of the value `b` in it, whose text is given, with the given
lexemes behind it. -/
def definitionOf (type text : String) (b : Bound) (ls : List Lexeme) (t : Tables) :
    Outcome (Bound × List Lexeme) :=
  andThen ((Value.expect size "<" opened .closeAngle ls).map (((), ·)), t) fun _ ls t =>
    let t := t.register name text b.expr (some (d.resolveType type)) (b.slot.getD (.ofRoot name))
    (.ok (⟨b.expr, some name, t.slots[name]?⟩, ls), t)

variable {d}

theorem bindPart_definitionValue (reader : Reader) (ls : List Lexeme) (t : Tables) :
    bindPart d resolve (Value.definitionValue reader size opened name ls) t =
      andThen (Value.raw "<" opened .comma ls, t) fun type ls t =>
        andThen ((Value.expect size "<" opened .comma ls).map (((), ·)), t) fun _ ls t =>
          andThen (bindPart d resolve (reader .closeAngle ls) t) fun b rest t =>
            definitionOf d size opened name type (textUpTo ls rest) b rest t := by
  rw [Value.definitionValue]
  cases Value.raw "<" opened .comma ls with
  | error e => rfl
  | ok typed =>
    obtain ⟨type, ls⟩ := typed
    show bindPart d resolve ((Value.expect size "<" opened .comma ls).mapError _ >>= _) t =
      andThen ((Value.expect size "<" opened .comma ls).map _, t) _
    cases Value.expect size "<" opened .comma ls with
    | error e => rfl
    | ok ls =>
      refine bindPart_bind
        (f := fun p => definitionBehind opened name type (textUpTo ls p.2) p.1 size p.2)
        (fun v rest => ?_) (fun v rest t => ?_) t
      · simp only [definitionBehind]
        cases Value.expect size "<" opened .closeAngle rest with
        | error e => exact ⟨v, rfl, rfl⟩
        | ok rest' => exact ⟨.definition name type v (textUpTo ls rest), rfl, rfl⟩
      · simp only [definitionBehind, definitionOf]
        cases Value.expect size "<" opened .closeAngle rest with
        | error e => rfl
        | ok rest' => rfl

theorem readsAs_definitionBehind (type : String) (b : Bound) {s s' : State}
    (h : Advances source s s') :
    ReadsAs source (do
      let text ← cutFrom source (s.position source)
      expectClose source .closeAngle "<" opened
      learn fun t =>
        let slot := b.slot.getD (.ofRoot name)
        let t := t.register name text b.expr (some (d.resolveType type)) slot
        (⟨b.expr, some name, t.slots[name]?⟩, t)) s'
      (definitionOf d source.utf8ByteSize opened name type
        (textUpTo (s.rest source) (s'.rest source)) b (s'.rest source) s'.tables) := by
  refine (readsAs_cutFrom h).bind_ok fun s₁ hrest htables _ => ?_
  rw [← hrest, ← htables]
  exact (readsAs_expectClose .closeAngle "<" opened s₁).bind fun _ s₂ _ _ => readsAs_learn _ s₂

end Definition

section Layers

/-- Inside of `depth` values, `inner` answers what `reader` reads, bound after what it refers to. -/
def ReadsInside (source : String) (d : Declarations) (resolve : String → Tables → Outcome Unit)
    (depth : Nat) (inner : Awaited → Action Bound) (reader : Reader) : Prop :=
  ∀ awaited s, s.depth = depth → ReadsAs source (inner awaited) s
    (bindPart d resolve (reader awaited (s.rest source)) s.tables)

variable {inner : Awaited → Action Bound} {reader : Reader} {gap gap' name : String}
  {start start' : Nat} {ls : List Lexeme}

/-- An element is read as its base and what is behind it. -/
theorem readsAs_element (hinner : ReadsInside source d resolve s.depth inner reader)
    (h : s.rest source = ⟨gap, .elementOpen, start⟩ :: ls) :
    ReadsAs source (element source d inner) s
      (bindPart d resolve (Value.elementValue reader source.utf8ByteSize start ls) s.tables) := by
  have hopened : s.position source = start := by rw [State.position_eq, h, Lexeme.position]
  rw [bindPart_elementValue, element]
  refine .of_get ?_
  rw [hopened]
  refine (readsAs_expectToken h rfl).bind_ok fun s₁ hrest htables hadvances => ?_
  rw [← hrest, ← htables]
  exact (hinner .comma s₁ hadvances.depth_eq).bind fun b s₂ _ _ => readsAs_elementBehind start b s₂

theorem readsAs_region (hinner : ReadsInside source d resolve s.depth inner reader)
    (h : s.rest source = ⟨gap, .regionOpen, start⟩ :: ls) :
    ReadsAs source (region source d inner) s
      (bindPart d resolve (Value.regionValue reader source.utf8ByteSize start ls) s.tables) := by
  have hopened : s.position source = start := by rw [State.position_eq, h, Lexeme.position]
  rw [bindPart_regionValue, region]
  refine .of_get ?_
  rw [hopened]
  refine (readsAs_expectToken h rfl).bind_ok fun s₁ hrest htables hadvances => ?_
  rw [← hrest, ← htables]
  exact (hinner .closeBrace s₁ hadvances.depth_eq).bind fun b s₂ _ _ =>
    readsAs_regionBehind start b s₂

theorem readsAs_definition (hinner : ReadsInside source d resolve s.depth inner reader)
    (h : s.rest source = ⟨gap, .register name, start⟩ :: ⟨gap', .openAngle, start'⟩ :: ls) :
    ReadsAs source (definition source d inner) s
      (bindPart d resolve (Value.definitionValue reader source.utf8ByteSize start name ls)
        s.tables) := by
  have hopened : s.position source = start := by rw [State.position_eq, h, Lexeme.position]
  rw [definition]
  refine .of_get ?_
  refine (readsAs_next h).bind_ok fun s₁ hrest₁ htables₁ h₁ => ?_
  rw [hopened]
  refine (readsAs_expectToken hrest₁ rfl).bind_ok fun s₂ hrest₂ htables₂ h₂ => ?_
  rw [bindPart_definitionValue, ← hrest₂, ← htables₁, ← htables₂]
  refine (readsAs_raw "<" start .comma s₂).bind fun type s₃ _ h₃ => ?_
  refine (readsAs_expectClose .comma "<" start s₃).bind fun _ s₄ _ h₄ => ?_
  refine .of_get ?_
  exact (hinner .closeAngle s₄ (((h₁.trans h₂).trans h₃).trans h₄).depth_eq).bind
    fun b s₅ _ h₅ => readsAs_definitionBehind start name type b h₅

end Layers

/-! ### Atoms -/

/-- The effects of a resolver are those of `resolve`, and it halts in no other way. -/
def Follows (resolver : Resolver) (resolve : String → Tables → Outcome Unit) : Prop :=
  ∀ symbol t, resolver symbol t = (answer (resolve symbol t).1, (resolve symbol t).2)

section Atoms

variable {resolver : Resolver} {awaited : Awaited}

/-- What an atom is, given its outermost tokens. -/
def atomOf (items : List Token) (text : String) : Value :=
  (symbol? items).elim (.atom text) (.reference · text)

theorem atomOf_eq (items : List Token) (text : String) :
    atomOf items text =
      match items with
      | [.register symbol] | [.conjured symbol] | [.openBrace, .conjured symbol] =>
        .reference symbol text
      | _ => .atom text := by
  rw [atomOf]
  split
  · rfl
  · rfl
  · rfl
  · next hregister hconjured hpayload =>
    rw [symbol?]
    · rfl
    · exact hregister
    · exact hconjured
    · exact hpayload

theorem atomValue_eq {size : Nat} {ls taken rest : List Lexeme} {st : Value.AtomState}
    (h : takeAtom awaited {} ls = (taken, st, rest)) :
    atomValue size awaited ls =
      if 0 < st.nesting then .error (.unclosed "\x7b" (Lexeme.position size ls))
      else if (Value.rawText taken).isEmpty then .error (Value.unexpected size "expression" rest)
      else .ok (atomOf st.items (Value.rawText taken), rest) := by
  simp only [atomValue, h]
  split
  · rfl
  · split
    · rfl
    · exact congrArg (fun v => Except.ok (v, rest)) (atomOf_eq st.items _).symm

theorem readsAs_follow (hresolver : Follows resolver resolve) (symbol : String) (s : State) :
    ReadsAs source (follow resolver symbol) s
      ((resolve symbol s.tables).1.map fun _ => ((), s.rest source),
        (resolve symbol s.tables).2) := by
  have heq : follow resolver symbol s = (answer (resolve symbol s.tables).1,
      { s with tables := (resolve symbol s.tables).2 }) := by
    rw [follow, hresolver]
  generalize resolve symbol s.tables = outcome at heq
  obtain ⟨_ | _, t'⟩ := outcome
  · exact .error ⟨heq, .learn s t'⟩ rfl
  · exact .ok ⟨heq, .learn s t'⟩ rfl rfl

theorem bindPart_reference (symbol text : String) (rest : List Lexeme) (t : Tables) :
    bindPart d resolve (.ok (.reference symbol text, rest)) t =
      match resolve symbol t with
      | (.error e, t) => (.error e, t)
      | (.ok (), t) => (.ok (⟨.ident text, some symbol, t.slots[symbol]?⟩, rest), t) := rfl

/-- An atom is bound when the symbol that it refers to is resolved. -/
theorem readsAs_atomOf (hresolver : Follows resolver resolve) (items : List Token) (text : String)
    (s : State) :
    ReadsAs source (match symbol? items with
      | some symbol => do
        follow resolver symbol
        learn fun t => (⟨.ident text, some symbol, t.slots[symbol]?⟩, t)
      | none => return ⟨.ident text, none, none⟩) s
      (bindPart d resolve (.ok (atomOf items text, s.rest source)) s.tables) := by
  rw [atomOf]
  cases symbol? items with
  | none => exact .pure _ s
  | some symbol =>
    have hread : ReadsAs source (do
        follow resolver symbol
        learn fun t => (⟨.ident text, some symbol, t.slots[symbol]?⟩, t)) s _ :=
      (readsAs_follow hresolver symbol s).bind
        (g := fun _ rest t => (.ok (⟨.ident text, some symbol, t.slots[symbol]?⟩, rest), t))
        fun _ s' _ _ => readsAs_learn _ s'
    rw [Option.elim_some, bindPart_reference]
    generalize resolve symbol s.tables = outcome at hread
    obtain ⟨_ | _, t'⟩ := outcome
    · exact hread
    · exact hread

/-- An atom is read and bound as the text up to its end. -/
theorem readsAs_atom (hresolver : Follows resolver resolve) (awaited : Awaited) (s : State) :
    ReadsAs source (atom source resolver awaited) s
      (bindPart d resolve
        ((atomValue source.utf8ByteSize awaited (s.rest source)).mapError (⟨none, ·⟩))
        s.tables) := by
  obtain ⟨taken, st, rest, htake⟩ : ∃ taken st rest,
    takeAtom awaited {} (s.rest source) = (taken, st, rest) := ⟨_, _, _, rfl⟩
  have hpass : ReadsAs source (passAtom source awaited {}) s (.ok (st, rest), s.tables) := by
    have hpass : ReadsAs source (passAtom source awaited {}) s _ := readsAs_passAtom {} s
    rwa [htake] at hpass
  have htext : Value.rawText taken = Text.trimmed (textUpTo (s.rest source) rest) := by
    rw [(Value.takeAtom_layout htake).1, textUpTo_append, Value.rawText]
  rw [atomValue_eq htake, htext, atom]
  refine .of_get (hpass.bind_ok fun s₁ hrest₁ htables₁ hadvances => ?_)
  by_cases hnesting : 0 < st.nesting
  · rw [if_pos hnesting, if_pos hnesting, ← htables₁, ← State.position_eq]
    exact (ReadsAs.fail _ s₁).of_eq rfl
  rw [if_neg hnesting, if_neg hnesting, ← hrest₁, ← htables₁]
  show ReadsAs source (cutFrom source (s.position source) >>= _) s₁ _
  refine (readsAs_cutFrom hadvances).bind_ok fun s₂ hrest₂ htables₂ _ => ?_
  rw [← hrest₂, ← htables₂]
  by_cases hempty : (Text.trimmed (textUpTo (s.rest source) (s₂.rest source))).isEmpty = true
  · simp only [if_pos hempty]
    exact ReadsAs.of_eq (x := unexpected source "expression") (readsAs_unexpected _ s₂) rfl
  · simp only [if_neg hempty]
    exact readsAs_atomOf hresolver st.items _ s₂

end Atoms

end OnePass

end TestSynth
