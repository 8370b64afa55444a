import TestSynth.Case.Binding

/-!
# Value trees

`ValueTree` is the abstract syntax of symbolic values, apart from any way to read them.  What stands
at its leaves (words, atoms, type spellings, indices) comes with the proof that it may stand there,
so every tree can be written down: `ValueTree.spelling` is its text.

* `ValueTree.depth` is how deep its layers are nested.
* `ValueTree.toValue` is the value that its text should be read as.
* `ValueTree.denote` is what it means, innermost layer first: an expression, the symbol and the slot
  behind it, and what the tables know afterwards.
-/

namespace TestSynth

/-! ### Tokens of the leaves -/

namespace Token

/-- The tokens of a text. -/
def ofText (s : String) : List Token := (Lexeme.ofText s).map (·.token)

/-- The tokens close the groups that they open, and the `nesting` groups that were open before them.
Nothing is said of the kinds of brackets. -/
def isBalanced : (nesting : Nat) → List Token → Bool
  | nesting, [] => nesting == 0
  | nesting, t :: ts =>
    if t.opensGroup then isBalanced (nesting + 1) ts
    else if t.closesGroup then 0 < nesting && isBalanced (nesting - 1) ts
    else isBalanced nesting ts

/-- All commas of the tokens stand in groups, given that `nesting` groups are open before them. -/
def isCommaFree : (nesting : Nat) → List Token → Bool
  | _, [] => true
  | nesting, t :: ts => !(nesting == 0 && t == comma) && isCommaFree (t.nest nesting) ts

end Token

/-- The tokens of an atom, and the symbol that it refers to. -/
inductive AtomForm : List Token → Option String → Prop
  | word (text : String) : AtomForm [.word text] none
  | register (name : String) : AtomForm [.register name] (some name)
  | conjured (name : String) : AtomForm [.conjured name] (some name)
  /-- A conjured symbol may have a payload in braces. -/
  | payload (name : String) (inner : List Token) (h : Token.isBalanced 0 inner = true) :
    AtomForm (.conjured name :: .openBrace :: (inner ++ [.closeBrace])) (some name)

/-- The innermost part of a value. -/
structure Atom where
  text : String
  /-- The symbol that the atom refers to. -/
  symbol : Option String
  form : AtomForm (Token.ofText text) symbol
  trimmed : Text.trimmed text = text

/-- A single word, the name of a field. -/
structure Word where
  text : String
  isWord : Token.ofText text = [.word text]

/-- The name of a register. -/
structure RegisterName where
  text : String
  isRegister : Token.ofText text = [.register text]

/-- The spelling of a type. -/
structure TypeText where
  text : String
  trimmed : Text.trimmed text = text
  balanced : Token.isBalanced 0 (Token.ofText text) = true

/-- The spelling of a type that a comma can follow. -/
structure ItemType extends TypeText where
  commaFree : Token.isCommaFree 0 (Token.ofText text) = true

/-- An index whose opposite is an index, and that is not the greatest one. -/
structure InnerIndex where
  value : Int
  least_lt : Index.least < value
  lt_greatest : value < Index.greatest

/-! ### Trees -/

/-- A symbolic value as a tree. -/
inductive ValueTree where
  | atom (a : Atom)
  /-- An element of `base`, and the fields taken from it. -/
  | element (base : ValueTree) (index : InnerIndex) (type : TypeText) (fields : List Word)
  /-- What `inner` denotes, and the fields taken from it. -/
  | region (inner : ValueTree) (fields : List Word)
  /-- The definition of a register as `inner`. -/
  | definition (name : RegisterName) (type : ItemType) (inner : ValueTree)

namespace ValueTree

/-- The text of some fields, each behind its dot. -/
def fieldsSpelling : List Word → String
  | [] => ""
  | field :: fields => "." ++ (field.text ++ fieldsSpelling fields)

/-- The text of a tree. -/
def spelling : ValueTree → String
  | atom a => a.text
  | element base index type fields =>
    "Element\x7b" ++ (base.spelling ++ ("," ++ (toString index.value ++ ("," ++ (type.text ++
      ("\x7d" ++ fieldsSpelling fields))))))
  | region inner fields => "SymRegion\x7b" ++ (inner.spelling ++ ("\x7d" ++ fieldsSpelling fields))
  | definition name type inner =>
    name.text ++ ("<" ++ (type.text ++ ("," ++ (inner.spelling ++ ">"))))

/-- The number of layers nested into each other. -/
def depth : ValueTree → Nat
  | atom _ => 1
  | element base .. => base.depth + 1
  | region inner _ => inner.depth + 1
  | definition _ _ inner => inner.depth + 1

/-- The symbol that the innermost atom refers to. -/
def referent? : ValueTree → Option String
  | atom a => a.symbol
  | element base .. => base.referent?
  | region inner _ => inner.referent?
  | definition _ _ inner => inner.referent?

/-- The value that a tree stands for. -/
def toValue : ValueTree → Value
  | atom a => a.symbol.elim (.atom a.text) fun symbol => .reference symbol a.text
  | element base index type fields =>
    .element base.toValue index.value type.text (fields.map Word.text)
  | region inner fields => .region inner.toValue (fields.map Word.text)
  | definition name type inner =>
    .definition name.text type.text inner.toValue inner.spelling

/-! ### Meaning -/

variable (d : Declarations)

/-- What is known after a symbol was met together with its meaning: the first definition counts. -/
def defined (name source : String) (expr : Expr) (type : String) (slot : Slot) (t : Tables) :
    Tables :=
  if t.slots.contains name then t
  else
    { t with
      parameters := t.parameters.insertIfNew name source
      types := t.types.insert name type
      exprs := t.exprs.insert name expr
      slots := t.slots.insert name slot
      order := t.order ++ [name] }

/-- The base of an access is void-like: its declared type resolves to one that mentions `void`. -/
def isUntyped (b : Bound) (t : Tables) : Prop :=
  ∃ declared, d.typeOf? t b = some declared ∧ isVoidLike (d.resolveType declared) = true

instance (b : Bound) (t : Tables) : Decidable (isUntyped d b t) :=
  decidable_of_iff ((d.typeOf? t b).any fun declared => isVoidLike (d.resolveType declared)) <| by
    simp [isUntyped, Option.any_eq_true]

/-- The types after a symbol was accessed as a pointer to `type`. -/
def narrowed (b : Bound) (type : String) (t : Tables) : Tables :=
  match b.symbol with
  | some symbol => { t with types := t.types.insert symbol (type ++ " *") }
  | none => t

/-- The sizes after the element `index` of a slot was accessed: the slot has at least `index + 1`
elements, which says nothing if the index is negative. -/
def indexed (b : Bound) (index : Int) (t : Tables) : Tables :=
  match b.slot with
  | some slot =>
    { t with sizes := t.sizes.insert slot (max (t.sizes[slot]?.getD 0) (index + 1).toNat) }
  | none => t

/-- What a tree denotes, and the tables after it. -/
def denote : ValueTree → Tables → Bound × Tables
  | atom a, t =>
    (⟨.ident a.text, a.symbol, a.symbol.bind fun symbol => t.slots[symbol]?⟩, t)
  | element base index type fields, t =>
    let (b, t) := base.denote t
    -- the type of an untyped base is what the access says
    let accessed : Expr × Tables :=
      if isUntyped d b t then (.cast (type.text ++ " *") b.expr, narrowed b type.text t)
      else (b.expr, t)
    let expr := .index accessed.1 index.value
    let t := indexed b index.value accessed.2
    match fields with
    | [] => (⟨expr, none, b.slot.map Slot.element⟩, t)
    -- what a field addresses is not followed any further
    | fields =>
      let link := type.text.toList.contains '*'
      (⟨d.takeFields expr link (some type.text) (fields.map Word.text), none, none⟩, t)
  | region inner fields, t =>
    let (b, t) := inner.denote t
    match fields with
    | [] => (b, t)
    | fields =>
      let declared := d.typeOf? t b
      let link := declared.any d.isPointerType
      (⟨d.takeFields b.expr link declared (fields.map Word.text), none, none⟩, t)
  | definition name type inner, t =>
    let (b, t) := inner.denote t
    let t := defined name.text inner.spelling b.expr (d.resolveType type.text)
      (b.slot.getD ⟨name.text, 0⟩) t
    (⟨b.expr, some name.text, t.slots[name.text]?⟩, t)

end ValueTree

end TestSynth
