import TestSynth.Proofs.Coverage
import TestSynth.Proofs.Growth
import TestSynth.Proofs.Shapes
import TestSynth.Proofs.TypedefWalk

/-!
# Types of buffers

An element of a void buffer tells what the buffer stores, and this becomes the type of the symbol
at hand.  Other symbols that stand for the same storage keep the types they have.  A buffer is sized
by the type of the symbol that demands it, so it is sized as its elements tell if they told this
symbol.

* `isVoidLike_append` : the words of a type are those of its parts.
* `Allocation.isVoidLike_of_demand` : a buffer is sized by a void element only if its symbol is
  void.
* `Declarations.narrow_buffer` : what an element tells of a buffer, and which symbols learn of it.
-/

namespace TestSynth

open TypeSpelling
open Renaming (isFiller isNameChar_of_isFiller not_isAlphanumeric)

/-! ### Void -/

/-- What follows a star or a blank adds words of its own. -/
theorem isVoidLike_append (s : String) {t : String}
    (ht : ∀ c, t.toList.head? = some c → isFiller c = true) :
    isVoidLike (s ++ t) = (isVoidLike s || isVoidLike t) := by
  rw [Bool.eq_iff_iff, Bool.or_eq_true]
  simp only [isVoidLike, List.contains_iff_mem, String.toList_append]
  exact Renaming.mem_pieces_append (by decide) fun c hc =>
    not_isAlphanumeric (isNameChar_of_isFiller (ht c hc))

theorem isVoidLike_of_fillers {f : List Char} (hf : ∀ c ∈ f, isFiller c = true) :
    isVoidLike (String.ofList f) = false := by
  rw [Bool.eq_false_iff, isVoidLike, String.toList_ofList, ne_eq, List.contains_iff_mem]
  intro hmem
  have hv := hf 'v' (Renaming.mem_of_mem_pieces hmem (by decide))
  revert hv
  decide

theorem trim_pointerTo (type : String) :
    ∃ f, (∀ c ∈ f, isFiller c = true) ∧
      Text.trim (pointerTo type).toList = Text.trim type.toList ++ f := by
  have hfillers := isFiller_of_mem_pointer
  rw [toList_pointerTo, Text.trim, Text.trimStart, List.dropWhile_append]
  split
  · next hnil =>
    -- the text is blank, so the star begins what is left
    rw [List.isEmpty_iff] at hnil
    refine ⟨['*'], fun c hc => hfillers c (List.mem_cons_of_mem ' ' hc), ?_⟩
    rw [Text.trim, Text.trimStart, hnil]
    decide
  · obtain ⟨blanks, htrim, hblanks⟩ := Text.trimEnd_append (Text.trimStart type.toList)
    refine ⟨blanks ++ [' ', '*'], fun c hc => ?_, ?_⟩
    · exact (List.mem_append.1 hc).elim (fun hc => isFiller_of_isBlank (hblanks c hc))
        (hfillers c)
    · have hstar (s : List Char) : Text.trimEnd (s ++ [' ', '*']) = s ++ [' ', '*'] := by
        refine Text.trimEnd_of_flush ?_
        rw [List.reverse_append]
        exact Text.flush_cons (by decide)
      rw [← Text.trimStart, hstar, ← List.append_assoc, Text.trim, ← htrim]

theorem Declarations.isVoid_pointerTo (d : Declarations) (type : String) :
    d.isVoid (pointerTo type) = d.isVoid type := by
  obtain ⟨f, hf, htrim⟩ := trim_pointerTo type
  have hhead : ∀ c, (String.ofList f).toList.head? = some c → isFiller c = true := by
    intro c hc
    rw [String.toList_ofList] at hc
    exact hf c (List.mem_of_mem_head? hc)
  rw [isVoid, d.resolveType_of_trim hf htrim, isVoidLike_append _ hhead, isVoidLike_of_fillers hf,
    Bool.or_false, isVoid]

/-- What a type stores is void only if the type is. -/
theorem isVoidLike_of_elementType? {type element : String} {depth : Nat}
    (h : elementType? type depth = some element) (hvoid : isVoidLike element = true) :
    isVoidLike type = true := by
  obtain ⟨s, hs, rfl⟩ := Option.map_eq_some_iff.1 h
  obtain ⟨pos, hpos, rfl, -⟩ := TypeSpelling.elementOf?_eq_some.1 hs
  -- behind what is stored stands the star at which the type is cut, perhaps behind blanks
  have hmem := List.mem_reverse.1 (List.mem_of_getElem? hpos)
  have hstar := TypeSpelling.head?_drop_of_mem_markersFrom hmem
  rw [Nat.sub_zero] at hstar
  obtain ⟨blanks, htake, hblanks⟩ := Text.trimEnd_append (type.toList.take pos)
  have htype : type = String.ofList (Text.trimEnd (type.toList.take pos)) ++
      String.ofList (blanks ++ type.toList.drop pos) := by
    rw [← String.ofList_append, ← List.append_assoc, ← htake, List.take_append_drop,
      String.ofList_toList]
  rw [htype, isVoidLike_append, hvoid, Bool.true_or]
  intro c hc
  rw [String.toList_ofList, List.head?_append] at hc
  cases hblank : blanks.head? with
  | none =>
    rw [hblank, Option.none_or, hstar] at hc
    cases hc
    decide
  | some b =>
    rw [hblank, Option.some_or] at hc
    cases hc
    exact isFiller_of_isBlank (hblanks _ (List.mem_of_mem_head? hblank))

/-! ### What is asked for -/

namespace Allocation

mutual

/-- The types of the elements that a step asks for. -/
def Step.elements : Step → List String
  | allocate _ element _ => [element]
  | loop _ _ body => Step.allElements body

/-- The types of the elements that some steps ask for. -/
def Step.allElements : List Step → List String
  | [] => []
  | step :: steps => step.elements ++ Step.allElements steps

end

variable {d : Declarations} {t : Tables} {exprs : Table Expr}

/-- A place is filled with what its type stores, at one level or another. -/
theorem exists_elementType?_of_mem {type root element : String} {below depth : Nat}
    {steps : List Step} (h : fill t type root below depth = .ok steps)
    (hin : element ∈ Step.allElements steps) : ∃ k, elementType? type k = some element := by
  induction below generalizing depth steps with
  | zero =>
    obtain ⟨here, rest, hhere, rfl, ⟨-, rfl⟩ | ⟨below', inner, hbelow, -, -⟩⟩ := fill_ok h
    · obtain rfl : element = here := by simpa [Step.allElements, Step.elements] using hin
      exact ⟨depth, hhere⟩
    · cases hbelow
  | succ below ih =>
    obtain ⟨here, rest, hhere, rfl, ⟨hbelow, -⟩ | ⟨below', inner, hbelow, hinner, rfl⟩⟩ := fill_ok h
    · cases hbelow
    · cases hbelow
      have hin : element = here ∨ element ∈ Step.allElements inner := by
        simpa [Step.allElements, Step.elements] using hin
      rcases hin with rfl | hin
      · exact ⟨depth, hhere⟩
      · exact ih hinner hin

end Allocation

/-! ### What is told -/

/-- A symbol has a type that says nothing about what is stored. -/
def Tables.IsVoid (d : Declarations) (t : Tables) (s : String) : Prop :=
  ∃ declared, t.types[s]? = some declared ∧ d.isVoid declared = true

open Allocation in
/-- The buffers of a symbol are sized by an element that is void only if the type of the symbol
is. -/
theorem Allocation.isVoidLike_of_demand {d : Declarations} {t : Tables} {exprs : Table Expr}
    {demand : Demand} (hin : demand ∈ demands d t exprs) {steps : List Step}
    (hsteps : demand.steps t = .ok steps) {element : String}
    (helement : element ∈ Step.allElements steps) (hvoid : isVoidLike element = true) :
    t.IsVoid d demand.symbol := by
  obtain ⟨symbol, -, hsymbol⟩ :=
    List.mem_filterMap.1 (List.mem_of_find?_eq_some (mem_demands.1 hin))
  obtain ⟨_, _, declared, -, -, hdeclared, -, rfl⟩ := demand?_eq_some_iff.1 hsymbol
  obtain ⟨k, hk⟩ := exists_elementType?_of_mem hsteps helement
  exact ⟨declared, hdeclared, isVoidLike_of_elementType? hk hvoid⟩

theorem Grows.not_isVoid {d : Declarations} {told : String → Prop} {t t' : Tables}
    (h : Grows d told t t') {s type : String} (hs : t.isRegistered s = true)
    (htype : t.types[s]? = some type) (hnot : d.isVoid type = false) : ¬t'.IsVoid d s := by
  rintro ⟨declared, hdeclared, hvoid⟩
  rcases h.types s type hs htype with hkept | ⟨hvoid', -⟩
  · cases hkept.symm.trans hdeclared
    rw [hnot] at hvoid
    cases hvoid
  · rw [← Declarations.isVoid, hnot] at hvoid'
    cases hvoid'

namespace Value

variable {d : Declarations} {base : Value} {t : Tables}

theorem exists_symbol? {slot : Slot} (hslot : (base.bind d t).1.slot = some slot)
    (htype : (base.typeIn? d (base.bind d t).2).isSome = true) :
    ∃ s, base.symbol? = some s ∧ (base.bind d t).2.slots[s]? = some slot := by
  cases hsymbol : base.symbol? with
  | some s => exact ⟨s, rfl, by rw [← slot_bind hsymbol, hslot]⟩
  | none =>
    rw [typeIn?, hsymbol, Option.bind_none, Option.none_or] at htype
    cases hname : base.name? with
    | none =>
      rw [hname] at htype
      cases htype
    | some name =>
      rw [slot_bind_of_name? hsymbol hname] at hslot
      cases hslot

theorem bind_element_snd {slot : Slot} (hslot : (base.bind d t).1.slot = some slot) (index : Int)
    (type : String) (fields : List String) :
    ((element base index type fields).bind d t).2 =
      (narrow d (base.bind d t).2 base type).recordSize slot (sizeForIndex index) := by
  rw [bind_element, bindElement_bind, elementOver, hslot]
  rfl

end Value

open Value Allocation in
/-- **An element of a void buffer tells what the buffer stores by one symbol.** The element gives
this symbol a type that is kept for good, and no other symbol: so all symbols that stand for the
storage say what is stored exactly if all others did before.  And a buffer is sized by a void
element only if the symbol that demands it has a void type, which this one never has again. The
tables are those after any text that is read as the element. -/
theorem Declarations.narrow_buffer (d : Declarations) {base : Value} {index : Int} {type : String}
    {fields : List String} {u : Tables} {slot : Slot}
    (hslot : (base.bind d u).1.slot = some slot)
    (hvoid : (d.typeOf? (base.bind d u).2 (base.bind d u).1).any d.isVoid = true)
    (htype : d.isVoid type = false) :
    let t := (base.bind d u).2
    let t' := ((Value.element base index type fields).bind d u).2
    (∀ (limit : Nat) (text : String) (t₀ : Tables),
      Value.parse limit text = .ok (.element base index type fields) →
      follow (d.resolve limit t₀.parameters.keys) (.element base index type fields) t₀ =
        (.ok (), u) → ∃ b, d.bindText limit text t₀ = (.ok b, t')) ∧
    ∃ s, (base.bind d u).1.symbol = some s ∧ t.slots[s]? = some slot ∧ t'.slots = t.slots ∧
      (∀ s', t'.types[s']? = if s' = s then some (type ++ " *") else t.types[s']?) ∧
      ((∀ s', t'.slots[s']? = some slot → ¬t'.IsVoid d s') ↔
        ∀ s', s' ≠ s → t.slots[s']? = some slot → ¬t.IsVoid d s') ∧
      ∀ (told : String → Prop) (t'' : Tables), Grows d told t' t'' →
        ¬t''.IsVoid d s ∧
        ∀ exprs, ∀ demand ∈ demands d t'' exprs, ¬t''.IsVoid d demand.symbol →
          ∀ steps, demand.steps t'' = .ok steps →
            ∀ element ∈ Step.allElements steps, isVoidLike element = false := by
  intro t t'
  rw [typeOf?_bind] at hvoid
  obtain ⟨s, hsymbol, hs⟩ := exists_symbol? hslot (by
    cases h : base.typeIn? d (base.bind d u).2 with
    | none => rw [h] at hvoid; cases hvoid
    | some declared => rfl)
  have ht' : t' = ({ t with types := t.types.insert s (type ++ " *") } : Tables).recordSize slot
      (sizeForIndex index) := by
    show ((Value.element base index type fields).bind d u).2 = _
    rw [bind_element_snd hslot, narrow, if_pos hvoid, hsymbol]
    rfl
  have hslots : t'.slots = t.slots := by rw [ht']; rfl
  have htypes (s' : String) :
      t'.types[s']? = if s' = s then some (type ++ " *") else t.types[s']? := by
    rw [ht', Tables.recordSize, Std.ExtTreeMap.getElem?_insert]
    exact if_congr (Std.compare_eq_iff_eq.trans eq_comm) rfl rfl
  have hnot : d.isVoid (type ++ " *") = false := (d.isVoid_pointerTo type).trans htype
  have hother {s' : String} (hne : s' ≠ s) : t'.IsVoid d s' ↔ t.IsVoid d s' := by
    rw [Tables.IsVoid, Tables.IsVoid, htypes, if_neg hne]
  have hself : t'.types[s]? = some (type ++ " *") := by rw [htypes, if_pos rfl]
  have hregistered : t'.isRegistered s = true := by
    rw [Tables.isRegistered_iff, hslots]
    exact Table.mem_of_getElem? hs
  refine ⟨fun limit text t₀ hread hfollow => ⟨_, bindText_of_parse hread hfollow⟩, s,
    by rw [symbol_bind, hsymbol], hs, hslots, htypes,
    ⟨fun hall s' hne hs' => ?_, fun hall s' hs' => ?_⟩,
    fun told t'' hgrows => ⟨hgrows.not_isVoid hregistered hself hnot, ?_⟩⟩
  · rw [← hother hne]
    exact hall s' (by rwa [hslots])
  · by_cases hne : s' = s
    · rw [hne]
      have hsame : Grows d (fun _ => True) t' t' := .refl t'
      exact hsame.not_isVoid hregistered hself hnot
    · rw [hother hne]
      exact hall s' hne (by rwa [← hslots])
  · intro exprs demand hin hnotVoid steps hsteps element helement
    exact Bool.eq_false_iff.2 fun hvoid =>
      hnotVoid (isVoidLike_of_demand hin hsteps helement hvoid)

/-! A void buffer that is defined by one symbol, and by two. -/

namespace Allocation

/-- A function with a void buffer as its argument. -/
def voidBuffer : Declarations where
  functions := .ofList [("foo", [TypedName.mk "p" "void *"])]

/-- The buffer by one symbol. -/
def definedOnce : Value := .definition "reg_$0" "void *" (.atom "p") "p"

/-- The buffer by another symbol. -/
def definedTwice : Value := .definition "reg_$1" "void *" definedOnce "reg_$0<void *,p>"

/-- No symbol for the buffer is void after an element of it was read. -/
theorem narrow_buffer_definedOnce :
    let t := (definedOnce.bind voidBuffer {}).2
    let t' := ((Value.element definedOnce 2 "int" []).bind voidBuffer {}).2
    (definedOnce.bind voidBuffer {}).1.slot = some (.ofRoot "reg_$0") ∧
      (voidBuffer.typeOf? t (definedOnce.bind voidBuffer {}).1).any voidBuffer.isVoid = true ∧
      voidBuffer.isVoid "int" = false ∧
      ∀ s, t'.slots[s]? = some (.ofRoot "reg_$0") → ¬t'.IsVoid voidBuffer s := by
  intro t t'
  have hslot : (definedOnce.bind voidBuffer {}).1.slot = some (.ofRoot "reg_$0") := by
    decide +kernel
  have hvoid : (voidBuffer.typeOf? t (definedOnce.bind voidBuffer {}).1).any voidBuffer.isVoid =
      true := by decide +kernel
  have htype : voidBuffer.isVoid "int" = false := by decide +kernel
  obtain ⟨-, s, hs, -, -, -, hall, -⟩ :=
    @Declarations.narrow_buffer voidBuffer definedOnce 2 "int" [] {} _ hslot hvoid htype
  refine ⟨hslot, hvoid, htype, hall.2 fun s' hne hs' => ?_⟩
  -- there is no other symbol
  have honly : ∀ entry ∈ t.slots.toList, entry.1 = "reg_$0" := by decide +kernel
  have hsymbol : (definedOnce.bind voidBuffer {}).1.symbol = some "reg_$0" := by decide +kernel
  rw [hsymbol] at hs
  cases hs
  exact absurd (honly _ (Table.mem_toList_of_getElem? hs')) hne

/-- A case that takes an element of the buffer by way of the second symbol. -/
def sharedBuffer : Case where
  parameters := .ofList [("reg_$2", "Element\x7breg_$1<void *,reg_$0<void *,p>>,2,int\x7d")]

/-- The first symbol stays void, and the buffer is sized by it. -/
theorem not_narrowed_sharedBuffer :
    let t := sharedBuffer.intake voidBuffer
    let t' := (voidBuffer.resolveParameters t).2
    (t.parameters["reg_$2"]?.map fun text => Value.parse Value.defaultLimit text) =
        some (.ok (.element definedTwice 2 "int" [])) ∧
      (definedTwice.bind voidBuffer t).1.slot = some (.ofRoot "reg_$0") ∧
      (voidBuffer.typeOf? (definedTwice.bind voidBuffer t).2
        (definedTwice.bind voidBuffer t).1).any voidBuffer.isVoid = true ∧
      voidBuffer.isVoid "int" = false ∧
      (voidBuffer.resolveParameters t).1 = .ok () ∧
      t'.slots["reg_$0"]? = some (.ofRoot "reg_$0") ∧ t'.IsVoid voidBuffer "reg_$0" ∧
      (statements voidBuffer {} t' t'.substituted).toOption.map (Statement.renderAll 2 0) =
        some "p = mymalloc(sizeof(void) * 3);\n" := by
  intro t t'
  refine ⟨by decide +kernel, by decide +kernel, by decide +kernel, by decide +kernel,
    by decide +kernel, by decide +kernel, ⟨"void *", ?_, ?_⟩, by decide +kernel⟩
  · decide +kernel
  · decide +kernel

end Allocation

end TestSynth
