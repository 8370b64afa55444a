import TestSynth.Case.Binding
import TestSynth.Proofs.Renaming.Spelling

/-!
# Types under a renaming

As long as the declarations of a program mention no symbols, all that they say of a renamed type is
what they say of the type, renamed.

* `Renaming.resolveType_text` : typedefs are followed as far.
* `Renaming.fieldType?_text` : types of fields.
* `Renaming.takeFields_expr` : the fields taken from a renamed expression.
-/

namespace TestSynth

open Text (isNameChar Cut Plain)
open TypeSpelling

/-! ### Declarations -/

namespace Table

/-- All names of a table are plain. -/
def PlainNames {α : Type} (t : Table α) : Prop := ∀ name ∈ t, Plain name.toList

theorem PlainNames.of_getElem? {α : Type} {t : Table α}
    (h : ∀ (name : String) (value : α), t[name]? = some value → Plain name.toList) :
    t.PlainNames := fun name hname =>
  have ⟨value, hvalue⟩ := exists_of_mem hname
  h name value hvalue

theorem mem_toList_of_getElem? {α : Type} {t : Table α} {name : String} {value : α}
    (h : t[name]? = some value) : (name, value) ∈ t.toList :=
  Std.ExtTreeMap.mem_toList_iff_getElem?_eq_some.2 h

end Table

namespace Declarations

/-- The texts of some names with their types. -/
def typedTexts (names : List TypedName) : List String := names.flatMap fun p => [p.name, p.type]

/-- All texts of some declarations. -/
def texts (d : Declarations) : List String :=
  (d.functions.toList.flatMap fun entry => entry.1 :: typedTexts entry.2) ++
    (d.globals.toList.flatMap fun entry => [entry.1, entry.2]) ++
    (d.typedefs.toList.flatMap fun entry => [entry.1, entry.2]) ++
    d.structs.toList.flatMap fun entry => entry.1 :: typedTexts entry.2

/-- The declarations mention no symbols. -/
def Plain (d : Declarations) : Prop := ∀ text ∈ d.texts, Text.Plain text.toList

namespace Plain

variable {d : Declarations}

theorem of_typedTexts {names : List TypedName}
    (h : ∀ text ∈ typedTexts names, Text.Plain text.toList) {p : TypedName} (hp : p ∈ names) :
    Text.Plain p.name.toList ∧ Text.Plain p.type.toList :=
  ⟨h _ (List.mem_flatMap.2 ⟨p, hp, by simp⟩), h _ (List.mem_flatMap.2 ⟨p, hp, by simp⟩)⟩

theorem mem_texts {text : String} :
    text ∈ d.texts ↔
      text ∈ (d.functions.toList.flatMap fun entry => entry.1 :: typedTexts entry.2) ∨
      text ∈ (d.globals.toList.flatMap fun entry => [entry.1, entry.2]) ∨
      text ∈ (d.typedefs.toList.flatMap fun entry => [entry.1, entry.2]) ∨
      text ∈ (d.structs.toList.flatMap fun entry => entry.1 :: typedTexts entry.2) := by
  rw [texts, List.mem_append, List.mem_append, List.mem_append, or_assoc, or_assoc]

/-- The entries of a table of the declarations are plain. -/
theorem entry {α : Type} {table : Table α} {f : α → List String} (h : d.Plain)
    (htexts : ∀ text ∈ table.toList.flatMap fun entry => entry.1 :: f entry.2, text ∈ d.texts)
    {name : String} {value : α} (hvalue : table[name]? = some value) :
    Text.Plain name.toList ∧ ∀ text ∈ f value, Text.Plain text.toList := by
  have hmem (text : String) (ht : text ∈ name :: f value) : Text.Plain text.toList :=
    h _ (htexts _ (List.mem_flatMap.2 ⟨_, Table.mem_toList_of_getElem? hvalue, ht⟩))
  exact List.forall_mem_cons.1 hmem

theorem function (h : d.Plain) {function : String} {names : List TypedName}
    (hf : d.functions[function]? = some names) : Text.Plain function.toList ∧
      ∀ p ∈ names, Text.Plain p.name.toList ∧ Text.Plain p.type.toList :=
  have hentry := h.entry (f := typedTexts) (fun _ ht => mem_texts.2 (.inl ht)) hf
  hentry.imp_right fun hnames _ => of_typedTexts hnames

theorem global (h : d.Plain) {name type : String} (hg : d.globals[name]? = some type) :
    Text.Plain name.toList ∧ Text.Plain type.toList :=
  have hentry := h.entry (f := ([·])) (fun _ ht => mem_texts.2 (.inr (.inl ht))) hg
  hentry.imp_right fun htype => htype type List.mem_cons_self

theorem typedef (h : d.Plain) {name target : String} (ht : d.typedefs[name]? = some target) :
    Text.Plain name.toList ∧ Text.Plain target.toList :=
  have hentry := h.entry (f := ([·])) (fun _ ht => mem_texts.2 (.inr (.inr (.inl ht)))) ht
  hentry.imp_right fun htarget => htarget target List.mem_cons_self

theorem struct (h : d.Plain) {record : String} {fields : List TypedName}
    (hs : d.structs[record]? = some fields) : Text.Plain record.toList ∧
      ∀ p ∈ fields, Text.Plain p.name.toList ∧ Text.Plain p.type.toList :=
  have hentry := h.entry (f := typedTexts) (fun _ ht => mem_texts.2 (.inr (.inr (.inr ht)))) hs
  hentry.imp_right fun hfields _ => of_typedTexts hfields

theorem structs (h : d.Plain) : d.structs.PlainNames := .of_getElem? fun _ _ hs => (h.struct hs).1

end Plain

end Declarations

namespace Renaming

variable (ρ : Renaming) {d : Declarations}

theorem getElem?_text {α : Type} {t : Table α} (h : t.PlainNames) (name : String) :
    t[ρ.text name]? = t[name]? := by
  by_cases hname : name ∈ t
  · rw [ρ.text_of_plain (h name hname)]
  · by_cases hname' : ρ.text name ∈ t
    · rw [← (ρ.text_eq_iff_of_plain (h _ hname')).1 rfl]
    · rw [Std.ExtTreeMap.getElem?_eq_none hname, Std.ExtTreeMap.getElem?_eq_none hname']

/-! ### Typedefs -/

theorem followTypedefs_of_none {typedefs : Table String} {base : List Char}
    (h : typedefs[Text.trimmed (String.ofList base)]? = none) (suffix : List Char) :
    followTypedefs typedefs base suffix = (base, suffix) := by
  rw [followTypedefs]
  dsimp only
  split
  · rfl
  · next h' =>
    rw [h] at h'
    cases h'

theorem followTypedefs_of_some {typedefs : Table String} {base : List Char} {target : String}
    (h : typedefs[Text.trimmed (String.ofList base)]? = some target) (suffix : List Char) :
    followTypedefs typedefs base suffix =
      followTypedefs (typedefs.erase (Text.trimmed (String.ofList base)))
        (splitSuffix (Text.trim target.toList)).1
        ((splitSuffix (Text.trim target.toList)).2 ++ suffix) := by
  conv_lhs => rw [followTypedefs]
  dsimp only
  split
  · next h' =>
    rw [h] at h'
    cases h'
  · next h' =>
    rw [h] at h'
    cases h'
    rfl

/-- A base and a suffix that begins with a star or a blank, both renamed. -/
def Suffixed (x y : List Char × List Char) : Prop :=
  y = (ρ.chars x.1, ρ.chars x.2) ∧ ∀ c, x.2.head? = some c → isFiller c = true

theorem suffixed_splitSuffix (s : List Char) :
    ρ.Suffixed (splitSuffix s) (splitSuffix (ρ.chars s)) :=
  ⟨ρ.splitSuffix_chars s, (splitSuffix_spec s).2⟩

/-- Typedefs that mention no symbols are followed as far for a renamed base. -/
theorem followTypedefs_chars {typedefs : Table String}
    (h : ∀ name target : String, typedefs[name]? = some target →
      Plain name.toList ∧ Plain target.toList)
    (base : List Char) {suffix : List Char}
    (hsuffix : ∀ c, suffix.head? = some c → isFiller c = true) :
    ρ.Suffixed (followTypedefs typedefs base suffix)
      (followTypedefs typedefs (ρ.chars base) (ρ.chars suffix)) := by
  have hname (base : List Char) : Text.trimmed (String.ofList (ρ.chars base)) =
      ρ.text (Text.trimmed (String.ofList base)) := by
    rw [← trimmed_text, text_ofList]
  induction hn : typedefs.size using Nat.strongRecOn generalizing typedefs base suffix with
  | ind n ih =>
    have hlookup := ρ.getElem?_text
      (.of_getElem? fun name target htarget => (h name target htarget).1)
      (Text.trimmed (String.ofList base))
    rw [← hname] at hlookup
    cases htarget : typedefs[Text.trimmed (String.ofList base)]? with
    | none =>
      rw [followTypedefs_of_none htarget, followTypedefs_of_none (hlookup.trans htarget)]
      exact ⟨rfl, hsuffix⟩
    | some target =>
      obtain ⟨hplain, htplain⟩ := h _ _ htarget
      rw [followTypedefs_of_some htarget, followTypedefs_of_some (hlookup.trans htarget), hname,
        ρ.text_of_plain hplain]
      -- the target of a typedef stays as it is
      obtain ⟨hsplit, hinner⟩ := ρ.suffixed_splitSuffix (Text.trim target.toList)
      rw [← trim_chars, chars_of_plain ρ htplain] at hsplit
      generalize splitSuffix (Text.trim target.toList) = split at hsplit hinner ⊢
      obtain ⟨base', inner⟩ := split
      obtain ⟨hbase', hinner'⟩ := Prod.mk.inj hsplit
      have hchars : inner ++ ρ.chars suffix = ρ.chars (inner ++ suffix) := by
        rw [chars_append ρ (.of_head fun c hc => isNameChar_of_isFiller (hsuffix c hc)), ← hinner']
      have herase : ∀ name value : String,
          (typedefs.erase (Text.trimmed (String.ofList base)))[name]? = some value →
            Plain name.toList ∧ Plain value.toList := by
        intro name value hvalue
        rw [Std.ExtTreeMap.getElem?_erase] at hvalue
        split at hvalue
        · cases hvalue
        · exact h name value hvalue
      have hfiller : ∀ c, (inner ++ suffix).head? = some c → isFiller c = true := by
        intro c hc
        rw [List.head?_append] at hc
        cases hhead : inner.head? with
        | none =>
          rw [hhead, Option.none_or] at hc
          exact hsuffix c hc
        | some e =>
          rw [hhead, Option.some_or] at hc
          exact hinner c (hhead.trans hc)
      have hnext := ih _ (hn ▸ Table.size_erase_lt (Table.mem_of_getElem? htarget)) herase base'
        hfiller rfl
      rwa [← hbase', ← hchars] at hnext

/-- **A renamed type is resolved to the renamed resolution.** -/
theorem resolveType_text (h : d.Plain) (type : String) :
    d.resolveType (ρ.text type) = ρ.text (d.resolveType type) := by
  obtain ⟨hsplit, hsuffix⟩ := ρ.suffixed_splitSuffix (Text.trim type.toList)
  rw [Declarations.resolveType, toList_text, trim_chars, hsplit, Declarations.resolveType]
  generalize splitSuffix (Text.trim type.toList) = split at hsuffix
  obtain ⟨qualified, suffix⟩ := split
  have hqualified := (splitQualifiers_spec qualified).2
  simp only [splitQualifiers_chars]
  generalize splitQualifiers qualified = split at hqualified
  obtain ⟨qualifiers, base⟩ := split
  obtain ⟨hfollow, hhead⟩ := ρ.followTypedefs_chars (fun _ _ => h.typedef) base hsuffix
  simp only [hfollow]
  generalize followTypedefs d.typedefs base suffix = reached at hhead
  obtain ⟨base', suffix'⟩ := reached
  rw [text_ofList, List.append_assoc, List.append_assoc, chars_append ρ (.of_last hqualified),
    chars_append ρ (.of_head fun c hc => isNameChar_of_isFiller (hhead c hc))]

/-! ### Types of values and fields -/

/-- What a renamed value denotes. -/
def expr : Expr → Expr
  | .ident name => .ident (ρ.text name)
  | .index base i => .index (expr base) i
  | .field base name viaPointer => .field (expr base) (ρ.text name) viaPointer
  | .cast type inner => .cast (ρ.text type) (expr inner)

/-- A slot with its root renamed. -/
def slot (s : Slot) : Slot := ⟨ρ.text s.root, s.depth⟩

/-- A bound value renamed. -/
def bound (b : Bound) : Bound :=
  ⟨ρ.expr b.expr, b.symbol.map ρ.text, b.slot.map ρ.slot⟩

theorem name?_expr (e : Expr) : (ρ.expr e).name? = e.name?.map ρ.text := by
  cases e <;> rfl

theorem recordName_text (name : String) :
    Declarations.recordName (ρ.text name) = ρ.text (Declarations.recordName name) := by
  have hmark {mark : String} (hplain : Plain mark.toList)
      (hlast : ∀ c, mark.toList.getLast? = some c → isNameChar c = false) :=
    ρ.after?_chars hplain hlast (Text.trim name.toList)
  rw [Declarations.recordName, toList_text, trim_chars,
    hmark (by decide) (Text.forall_some (by decide)),
    hmark (by decide) (Text.forall_some (by decide)), ← Option.map_or, Declarations.recordName]
  cases (Text.after? "struct ".toList (Text.trim name.toList)).or
      (Text.after? "union ".toList (Text.trim name.toList)) with
  | none => exact (ρ.text_ofList _).symm
  | some rest =>
    rw [Option.map_some]
    dsimp only
    rw [trim_chars, text_ofList]

theorem fields?_text (h : d.Plain) (record : String) :
    d.fields? (ρ.text record) = d.fields? record := by
  rw [Declarations.fields?, trimmed_text, recordName_text, ρ.getElem?_text h.structs,
    ρ.getElem?_text h.structs, Declarations.fields?]

theorem fields?_plain (h : d.Plain) {record : String} {fields : List TypedName}
    (hfields : d.fields? record = some fields) :
    ∀ p ∈ fields, Plain p.name.toList ∧ Plain p.type.toList := by
  rw [Declarations.fields?, Option.or_eq_some_iff] at hfields
  rcases hfields with hfields | ⟨-, hfields⟩ <;> exact (h.struct hfields).2

theorem find?_text {fields : List TypedName}
    (h : ∀ p ∈ fields, Plain p.name.toList ∧ Plain p.type.toList) (field : String) :
    (fields.find? (·.name == ρ.text field)).map (·.type) =
      ((fields.find? (·.name == field)).map (·.type)).map ρ.text := by
  induction fields with
  | nil => rfl
  | cons p fields ih =>
    obtain ⟨hname, htype⟩ := h p List.mem_cons_self
    have heq : (p.name == ρ.text field) = (p.name == field) := by
      rw [Bool.eq_iff_iff, beq_iff_eq, beq_iff_eq, eq_comm, ρ.text_eq_iff_of_plain hname, eq_comm]
    rw [List.find?_cons, List.find?_cons, heq]
    split
    · exact congrArg some (ρ.text_of_plain htype).symm
    · exact ih fun q hq => h q (List.mem_cons_of_mem p hq)

theorem fieldType?_text (h : d.Plain) (record field : String) :
    d.fieldType? (ρ.text record) (ρ.text field) = (d.fieldType? record field).map ρ.text := by
  rw [Declarations.fieldType?, resolveType_text ρ h, toList_text, splitSuffix_chars,
    Declarations.fieldType?]
  simp only [← text_ofList, fields?_text ρ h]
  cases hfields : d.fields? (String.ofList (splitSuffix (d.resolveType record).toList).1) with
  | none => rfl
  | some fields => exact ρ.find?_text (fields?_plain h hfields) field

theorem isPointerType_text (h : d.Plain) (type : String) :
    d.isPointerType (ρ.text type) = d.isPointerType type := by
  rw [Declarations.isPointerType, resolveType_text ρ h, isPointer_text, Declarations.isPointerType]

theorem any_map_text {p : String → Bool} (hp : ∀ s, p (ρ.text s) = p s) (s? : Option String) :
    (s?.map ρ.text).any p = s?.any p := by
  cases s? with
  | none => rfl
  | some s => exact hp s

theorem takeFields_expr (h : d.Plain) (e : Expr) (viaPointer : Bool) (record : Option String)
    (fields : List String) :
    d.takeFields (ρ.expr e) viaPointer (record.map ρ.text) (fields.map ρ.text) =
      ρ.expr (d.takeFields e viaPointer record fields) := by
  induction fields generalizing e viaPointer record with
  | nil => rfl
  | cons field fields ih =>
    have htype : ((record.map ρ.text).bind fun record => d.fieldType? record (ρ.text field)) =
        (record.bind fun record => d.fieldType? record field).map ρ.text := by
      cases record with
      | none => rfl
      | some record => exact ρ.fieldType?_text h record field
    simp only [List.map_cons, Declarations.takeFields, htype,
      ρ.any_map_text (ρ.isPointerType_text h)]
    exact ih (.field e field viaPointer) _ _

end Renaming

end TestSynth
