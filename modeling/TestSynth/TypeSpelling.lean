import TestSynth.Text.Alphanumeric
import TestSynth.Text.Blank
import TestSynth.Text.Split

/-!
# Type spellings

A C type is kept as it is spelled: `struct node *`, `char *const`, `int (*)(int, char)`. Of a
declarator only two things are read: the run of stars, qualifiers and blanks at its end
(`splitSuffix`), and the stars outside parentheses (`pointerMarkers`), each of which is one level of
indirection. A star inside parentheses belongs to a function pointer and counts for nothing.
-/

namespace TestSynth.TypeSpelling

open Text (isBlank trimStart trimEnd)

/-- The words that qualify a type without changing what it points to. -/
def qualifiers : List (List Char) :=
  ["const".toList, "volatile".toList, "restrict".toList]

/-! ### Base and suffix -/

/-- A reversed spelling has more than blanks and its last run of stars. -/
def hasBase (r : List Char) : Bool :=
  ((r.dropWhile isBlank).dropWhile (· == '*')).any (!isBlank ·)

/-- The reversed spelling before its last word, if that word is the qualifier `q`: it stands behind
a star or a blank, and a base remains in front of it. -/
def beforeQualifier? (r q : List Char) : Option (List Char) :=
  match Text.after? q.reverse r with
  | some (c :: rest) =>
    if (c == '*' || isBlank c) && hasBase (c :: rest) then some (c :: rest) else none
  | _ => none

/-- The reversed spelling before its last word, if that word is a qualifier. -/
def beforeQualifiers? (r : List Char) : Option (List Char) :=
  qualifiers.findSome? (beforeQualifier? r)

theorem length_beforeQualifiers? {r rest : List Char} (h : beforeQualifiers? r = some rest) :
    rest.length < r.length := by
  obtain ⟨q, hq, h⟩ := List.exists_of_findSome?_eq_some h
  unfold beforeQualifier? at h
  split at h
  · next c rest' hafter =>
    have hlen := congrArg List.length (Text.after?_eq_some.1 hafter)
    have : 0 < q.length := by
      simp only [qualifiers, List.mem_cons, List.not_mem_nil, or_false] at hq
      rcases hq with rfl | rfl | rfl <;> decide
    split at h
    · cases h
      simp only [List.length_append, List.length_reverse, List.length_cons] at hlen ⊢
      omega
    · cases h
  · cases h

/-- A reversed spelling without its suffix of stars, blanks and qualifiers. -/
def dropSuffix (r : List Char) : List Char :=
  match r with
  | [] => []
  | c :: rest =>
    if c == '*' || isBlank c then dropSuffix rest
    else
      match h : beforeQualifiers? (c :: rest) with
      | some rest' =>
        have := length_beforeQualifiers? h
        dropSuffix rest'
      | none => c :: rest
termination_by r.length
decreasing_by
  · exact Nat.lt_succ_self rest.length
  · exact this

/-- The base of a spelling and its suffix: `char *const` is `char` and ` *const`. -/
def splitSuffix (s : List Char) : List Char × List Char :=
  let base := (dropSuffix s.reverse).reverse
  (base, s.drop base.length)

theorem snd_splitSuffix_of_append {s f : List Char} (h : s = (splitSuffix s).1 ++ f) :
    (splitSuffix s).2 = f := by
  have hdrop := congrArg (List.drop (splitSuffix s).1.length) h
  rwa [List.drop_left] at hdrop

/-- The rest of a base behind a leading qualifier and the blanks that follow it; the first of these
is a space. -/
def afterQualifier? (s q : List Char) : Option (List Char) :=
  match Text.after? q s with
  | some (' ' :: rest) => some (trimStart rest)
  | _ => none

/-- The rest of a base behind a leading qualifier. -/
def afterQualifiers? (s : List Char) : Option (List Char) :=
  qualifiers.findSome? (afterQualifier? s)

theorem length_afterQualifiers? {s rest : List Char} (h : afterQualifiers? s = some rest) :
    rest.length < s.length := by
  obtain ⟨q, -, h⟩ := List.exists_of_findSome?_eq_some h
  unfold afterQualifier? at h
  split at h
  · next rest' hafter =>
    have hlen := congrArg List.length (Text.after?_eq_some.1 hafter)
    cases h
    have := (List.dropWhile_sublist isBlank (l := rest')).length_le
    simp only [List.length_append, List.length_cons] at hlen
    simp only [trimStart]
    omega
  · cases h

/-- A base without its leading qualifiers. -/
def dropQualifiers (s : List Char) : List Char :=
  match h : afterQualifiers? s with
  | some rest =>
    have := length_afterQualifiers? h
    dropQualifiers rest
  | none => s
termination_by s.length

/-- The leading qualifiers of a base, with their blanks, and what they qualify. -/
def splitQualifiers (s : List Char) : List Char × List Char :=
  let base := dropQualifiers s
  (s.take (s.length - base.length), base)

theorem fst_splitQualifiers_of_append {s q : List Char} (h : s = q ++ dropQualifiers s) :
    (splitQualifiers s).1 = q := by
  show s.take (s.length - (dropQualifiers s).length) = q
  have hlength := congrArg List.length h
  rw [List.length_append] at hlength
  have htake := congrArg (List.take q.length) h
  rw [List.take_left] at htake
  rwa [hlength, Nat.add_sub_cancel]

/-! ### Pointers -/

/-- The positions of the stars outside parentheses, in a text that starts at position `pos` inside
`nesting` open parentheses. A closing parenthesis too many is ignored. -/
def markersFrom (pos nesting : Nat) : List Char → List Nat
  | [] => []
  | '(' :: s => markersFrom (pos + 1) (nesting + 1) s
  | ')' :: s => markersFrom (pos + 1) (nesting - 1) s
  | '*' :: s =>
    if nesting = 0 then pos :: markersFrom (pos + 1) nesting s
    else markersFrom (pos + 1) nesting s
  | _ :: s => markersFrom (pos + 1) nesting s

/-- The positions of the stars outside parentheses, in ascending order. -/
def pointerMarkers (s : List Char) : List Nat := markersFrom 0 0 s

/-- What is left of the marker `depth` places from the right. -/
def elementOf? (s : List Char) (depth : Nat) : Option (List Char) :=
  match (pointerMarkers s).reverse[depth]? with
  | none => none
  | some pos =>
    let element := trimEnd (s.take pos)
    if element.isEmpty then none else some element

end TestSynth.TypeSpelling

namespace TestSynth

open TypeSpelling

/-- The number of indirections that a type spells. -/
def pointerDepth (type : String) : Nat := (pointerMarkers type.toList).length

/-- A type with at least one indirection. -/
def isPointer (type : String) : Bool := 0 < pointerDepth type

/-- The type stored in the buffer that is reached after `depth` dereferences: all that stands before
the marker `depth` places from the right, if that is not blank. -/
def elementType? (type : String) (depth : Nat) : Option String :=
  (elementOf? type.toList depth).map String.ofList

/-- A type that mentions `void` as a word says nothing about what is stored. -/
def isVoidLike (type : String) : Bool :=
  (Text.pieces (fun c => !(Text.isAlphanumeric c || c == '_')) type.toList).contains "void".toList

end TestSynth
