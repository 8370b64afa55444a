import TestSynth.Proofs.Nesting
import TestSynth.Proofs.Reading

/-!
# Bracket groups in atoms

An atom is read with two counters, one for open groups and one for open angle brackets.  What stands
in a group leaves the first as it was, but not the second: an angle bracket that closes is counted
wherever it stands, and one that opens is counted if the last but one of the outermost tokens is a
register, which inside a group are the tokens in front of it.  So what is in a group moves the end
of the atom around it if and only if it changes the number of open angle brackets, where that is
looked at.

* `Value.takeAtom_eq_iff` : when an atom is taken up to a given place.
* `Value.AtomState.foldl_push_group` : what a group does to the counters.
* `Value.AtomState.Agree` : states from which an atom is read alike.
* `Value.exchangeable_group_iff` : when a group can be exchanged for every other one of its kind.
-/

namespace TestSynth

theorem Text.trim_eq_nil {s : List Char} : trim s = [] ↔ ∀ c ∈ s, isBlank c = true := by
  rw [trim, trimStart, trimEnd, List.reverse_eq_nil_iff, List.dropWhile_eq_nil_iff]
  constructor
  · intro h c hc
    rw [← List.takeWhile_append_dropWhile (p := isBlank) (l := s), List.mem_append] at hc
    rcases hc with hc | hc
    · exact List.mem_takeWhile_imp hc
    · exact h c (List.mem_reverse.2 hc)
  · intro h c hc
    exact h c ((List.dropWhile_sublist isBlank).mem (List.mem_reverse.1 hc))

namespace Token

/-- A register symbol. -/
def isRegister : Token → Bool
  | register _ => true
  | _ => false

/-- The number of open angle brackets behind a token, if those that open are `counted`. -/
def angle (counted : Bool) (angles : Nat) : Token → Nat
  | openAngle => if counted then angles + 1 else angles
  | closeAngle => angles - 1
  | _ => angles

/-- The number of open angle brackets behind some tokens. -/
def anglesBehind (counted : Bool) (angles : Nat) (ts : List Token) : Nat :=
  ts.foldl (angle counted) angles

theorem anglesBehind_of_plain {ts : List Token} (h : ∀ t ∈ ts, t ≠ openAngle ∧ t ≠ closeAngle)
    {counted : Bool} {angles : Nat} : anglesBehind counted angles ts = angles := by
  induction ts with
  | nil => rfl
  | cons t ts ih =>
    obtain ⟨hopen, hclose⟩ := h t List.mem_cons_self
    have ht : angle counted angles t = angles := by
      cases t <;> first | rfl | exact absurd rfl hopen | exact absurd rfl hclose
    rw [anglesBehind, List.foldl_cons, ht]
    exact ih fun u hu => h u (List.mem_cons_of_mem t hu)

theorem anglesBehind_zero (ts : List Token) : anglesBehind false 0 ts = 0 := by
  induction ts with
  | nil => rfl
  | cons t ts ih =>
    have ht : angle false 0 t = 0 := by cases t <;> rfl
    rw [anglesBehind, List.foldl_cons, ht]
    exact ih

/-- A group of brackets of one kind. -/
inductive Group (k : Bracket) : List Token → Prop
  | mk {t t' : Token} {inner : List Token} (hopen : t.opens? = some k)
    (hclose : t'.closes? = some k) (hinner : Nested inner) : Group k (t :: (inner ++ [t']))

theorem Nested.isBalanced {ts : List Token} (h : Nested ts) : isBalanced 0 ts = true := by
  induction h with
  | nil => rfl
  | plain hopen hclose _ ih => rw [isBalanced_plain hopen hclose, ih]
  | @group k t t' inner rest hopen hclose _ _ ihinner ihrest =>
    rw [isBalanced_opens hopen, Nat.add_comm 0 1, Nat.add_comm 1 0, isBalanced_append ihinner,
      isBalanced_closes (opens?_of_closes? hclose) hclose]
    exact ihrest

theorem exists_not_blank_of_opens? {t : Token} {k : Bracket} (h : t.opens? = some k) :
    ∃ c ∈ t.spelling.toList, Text.isBlank c = false := by
  cases t with
  | elementOpen | regionOpen | openBrace => exact ⟨'\x7b', by decide, by decide⟩
  | openParen => exact ⟨'(', by decide, by decide⟩
  | openBracket => exact ⟨'[', by decide, by decide⟩
  | _ => cases h

/-- A token of a balanced text leaves the groups around the text open. -/
theorem isBalanced_nest {t : Token} {ts : List Token} {n : Nat}
    (h : isBalanced n (t :: ts) = true) :
    isBalanced (t.nest n) ts = true ∧ ∀ m, t.nest (n + m) = t.nest n + m := by
  simp only [nest, opensGroup_eq, closesGroup_eq]
  rcases t.kind_cases with ⟨k, hopen, hclose⟩ | ⟨k, hopen, hclose⟩ | ⟨hopen, hclose⟩
  · rw [isBalanced_opens hopen] at h
    simp only [hopen, Option.isSome_some, if_true]
    exact ⟨h, fun m => Nat.add_right_comm n m 1⟩
  · rw [isBalanced_closes hopen hclose, Bool.and_eq_true, decide_eq_true_eq] at h
    simp only [hopen, hclose, Option.isSome_some, Option.isSome_none, Bool.false_eq_true, if_true,
      if_false]
    exact ⟨h.2, fun m => Nat.sub_add_comm h.1⟩
  · rw [isBalanced_plain hopen hclose] at h
    simp only [hopen, hclose, Option.isSome_none, Bool.false_eq_true, if_false]
    exact ⟨h, fun _ => trivial⟩

end Token

namespace Value

variable {awaited : Awaited} {st st' : AtomState} {t : Token} {ts ts' : List Token}
  {ls rest : List Lexeme}

/-! ### Where an atom ends -/

/-- **An atom is taken up to the place where it ends.** -/
theorem takeAtom_eq_iff :
    takeAtom awaited st (ls ++ rest) = (ls, st', rest) ↔
      st.Passes awaited (tokens ls) ∧ (tokens ls).foldl AtomState.push st = st' ∧
        ∀ l ∈ rest.head?, st'.nesting = 0 ∧ awaited.endsAt st'.angles l.token = true := by
  induction ls generalizing st with
  | nil =>
    show takeAtom awaited st rest = _ ↔ True ∧ st = st' ∧ _
    cases rest with
    | nil => simp [takeAtom]
    | cons l rest =>
      rw [takeAtom]
      split
      · next hends =>
        rw [Bool.and_eq_true, decide_eq_true_eq] at hends
        constructor
        · intro h
          cases h
          exact ⟨trivial, rfl, fun _ hl => Option.some.inj hl ▸ hends⟩
        · rintro ⟨-, rfl, -⟩
          rfl
      · next hgo =>
        refine iff_of_false (fun h => List.cons_ne_nil _ _ (congrArg Prod.fst h)) ?_
        rintro ⟨-, rfl, hends⟩
        obtain ⟨hnesting, hends⟩ := hends l rfl
        exact hgo (by rw [hnesting, hends]; rfl)
  | cons l ls ih =>
    rw [List.cons_append, takeAtom]
    split
    · next hends =>
      refine iff_of_false (fun h => List.cons_ne_nil _ _ (congrArg Prod.fst h).symm) ?_
      rintro ⟨⟨hgo, -⟩, -⟩
      rw [hgo] at hends
      cases hends
    · next hgo =>
      have hpass : st.Passes awaited (tokens (l :: ls)) ↔
          (st.push l.token).Passes awaited (tokens ls) :=
        and_iff_right (Bool.eq_false_iff.2 hgo)
      have hfold : (tokens (l :: ls)).foldl AtomState.push st =
          (tokens ls).foldl AtomState.push (st.push l.token) := rfl
      rw [hpass, hfold, ← ih]
      simp [Prod.ext_iff]

theorem isEmpty_rawText {l : Lexeme} (hl : l ∈ ls) {c : Char} (hc : c ∈ l.text.toList)
    (hblank : Text.isBlank c = false) : (rawText ls).isEmpty = false := by
  have hsource : c ∈ (Lexeme.sourceText ls).toList := by
    obtain ⟨m, ls, rfl⟩ := List.exists_cons_of_ne_nil (List.ne_nil_of_mem hl)
    rw [Lexeme.sourceText, String.toList_append, List.mem_append]
    rcases List.mem_cons.1 hl with rfl | hl
    · exact .inl hc
    · right
      rw [String.toList_join, List.mem_flatMap]
      exact ⟨_, List.mem_map_of_mem hl, by simp [hc]⟩
  rw [String.isEmpty_eq_false_iff, rawText, Text.trimmed]
  intro hempty
  have htrim : Text.trim (Lexeme.sourceText ls).toList = [] := by simpa using hempty
  rw [Text.trim_eq_nil.1 htrim c hsource] at hblank
  cases hblank

/-- The lexemes are taken as an atom, up to the rest. -/
def Reads (size : Nat) (awaited : Awaited) (ls rest : List Lexeme) : Prop :=
  ∃ v, atomValue size awaited (ls ++ rest) = .ok (v, rest)

/-- An atom that has been read ends in front of the rest. -/
def AtomState.EndsBefore (awaited : Awaited) (st : AtomState) (rest : List Token) : Prop :=
  st.nesting = 0 ∧ ∀ t ∈ rest.head?, awaited.endsAt st.angles t = true

theorem reads_iff (hls : (rawText ls).isEmpty = false) {size : Nat} :
    Reads size awaited ls rest ↔
      AtomState.Passes awaited {} (tokens ls) ∧
        ((tokens ls).foldl AtomState.push {}).EndsBefore awaited (tokens rest) := by
  have hends (st : AtomState) : st.EndsBefore awaited (tokens rest) ↔
      st.nesting = 0 ∧ ∀ l ∈ rest.head?, awaited.endsAt st.angles l.token = true := by
    cases rest <;> simp [AtomState.EndsBefore]
  rw [hends]
  constructor
  · rintro ⟨v, hv⟩
    obtain ⟨taken, st, rest', htake⟩ :
        ∃ taken st rest', takeAtom awaited {} (ls ++ rest) = (taken, st, rest') := ⟨_, _, _, rfl⟩
    obtain ⟨happend, -⟩ := takeAtom_layout htake
    simp only [atomValue, htake] at hv
    split at hv
    · cases hv
    · next hnesting =>
      split at hv
      · cases hv
      · cases hv
        obtain rfl := List.append_cancel_right happend
        obtain ⟨hpass, rfl, hend⟩ := takeAtom_eq_iff.1 htake
        exact ⟨hpass, by omega, fun l hl => (hend l hl).2⟩
  · rintro ⟨hpass, hnesting, hend⟩
    have htake := takeAtom_eq_iff.2 ⟨hpass, rfl, fun l hl => ⟨hnesting, hend l hl⟩⟩
    simp only [Reads, atomValue, htake, hnesting, lt_irrefl, hls, Bool.false_eq_true, if_false]
    exact ⟨_, rfl⟩

/-! ### What a group does -/

namespace AtomState

theorem passes_append_iff :
    st.Passes awaited (ts ++ ts') ↔
      st.Passes awaited ts ∧ (ts.foldl push st).Passes awaited ts' := by
  induction ts generalizing st with
  | nil => exact (and_iff_right trivial).symm
  | cons t ts ih => rw [List.cons_append, Passes, ih, Passes, and_assoc, List.foldl_cons]

/-- An angle bracket that opens is counted here: the token that would be the last but one of the
outermost tokens is a register. -/
def counts (st : AtomState) : Bool :=
  (if st.nesting = 0 then st.items.head? else st.items[1]?).any Token.isRegister

theorem angles_push (st : AtomState) (t : Token) :
    (st.push t).angles = t.angle st.counts st.angles := by
  cases t with
  | openAngle =>
    have hitems : (if st.nesting = 0 then .openAngle :: st.items else st.items)[1]? =
        if st.nesting = 0 then st.items.head? else st.items[1]? := by
      split <;> simp [List.head?_eq_getElem?]
    rw [Token.angle, counts, ← hitems]
    unfold push
    generalize (if st.nesting = 0 then Token.openAngle :: st.items else st.items) = items
    match items with
    | [] | [_] => rfl
    | _ :: t :: _ => cases t <;> rfl
  | _ => rfl

/-- What is balanced in an open group leaves the group open, and the outermost tokens as they
are. -/
theorem foldl_push_inner {n m : Nat} (hts : Token.isBalanced n ts = true)
    (hst : st.nesting = n + (m + 1)) :
    st.Passes awaited ts ∧
      ts.foldl push st = ⟨m + 1, Token.anglesBehind st.counts st.angles ts, st.items⟩ := by
  induction ts generalizing n st with
  | nil =>
    obtain rfl : n = 0 := by simpa [Token.isBalanced] using hts
    rw [Nat.zero_add] at hst
    exact ⟨trivial, by rw [← hst]; rfl⟩
  | cons t ts ih =>
    have hpos : st.nesting ≠ 0 := by omega
    obtain ⟨hbalanced, hnest⟩ := Token.isBalanced_nest hts
    have hnesting : (st.push t).nesting = t.nest n + (m + 1) := by
      rw [← hnest, ← hst]
      rfl
    obtain ⟨hpass, hfold⟩ := ih hbalanced hnesting
    have hitems : (st.push t).items = st.items := if_neg hpos
    have hcounts : (st.push t).counts = st.counts := by
      rw [counts, counts, hitems, if_neg hpos, if_neg (by omega)]
    refine ⟨⟨by rw [decide_eq_false hpos, Bool.false_and], hpass⟩, ?_⟩
    rw [List.foldl_cons, hfold, hitems, hcounts, angles_push]
    rfl

/-- **What a group does**: it is read to its end, and only the number of open angle brackets depends
on what is in it. -/
theorem foldl_push_group {k : Bracket} (h : Token.Group k ts) :
    st.Passes awaited ts ∧ ∃ t, t.isRegister = false ∧
      ts.foldl push st = ⟨st.nesting, Token.anglesBehind st.counts st.angles ts,
        if st.nesting = 0 then t :: st.items else st.items⟩ := by
  obtain @⟨t, t', inner, hopen, hclose, hinner⟩ := h
  have hends : awaited.endsAt st.angles t = false := by cases t <;> first | rfl | cases hopen
  have hangle (b : Bool) (a : Nat) : t.angle b a = a := by cases t <;> first | rfl | cases hopen
  have hangle' (b : Bool) (a : Nat) : t'.angle b a = a := by cases t' <;> first | rfl | cases hclose
  have hregister : t.isRegister = false := by cases t <;> first | rfl | cases hopen
  have hnesting : (st.push t).nesting = 0 + (st.nesting + 1) := by
    show t.nest st.nesting = _
    rw [Token.nest, Token.opensGroup_eq, hopen, Nat.zero_add]
    rfl
  -- behind the opening bracket, the tokens in front of the group are looked at
  have hcounts : (st.push t).counts = st.counts := by
    rw [counts, counts, if_neg (by omega)]
    show (if st.nesting = 0 then t :: st.items else st.items)[1]?.any _ = _
    split <;> simp [List.head?_eq_getElem?]
  have hangles : (st.push t).angles = st.angles := by rw [angles_push, hangle]
  obtain ⟨hpass, hfold⟩ := @foldl_push_inner awaited _ _ _ _ hinner.isBalanced hnesting
  refine ⟨⟨by rw [hends, Bool.and_false], passes_append hpass ?_⟩, t, hregister, ?_⟩
  · rw [hfold]
    exact ⟨rfl, trivial⟩
  · have hlast (st : AtomState) (hst : st.nesting ≠ 0) :
        st.push t' = ⟨st.nesting - 1, st.angles, st.items⟩ := by
      have hnest : (st.push t').nesting = st.nesting - 1 := by
        show t'.nest st.nesting = _
        rw [Token.nest, Token.opensGroup_eq, Token.closesGroup_eq, Token.opens?_of_closes? hclose,
          hclose]
        rfl
      have hitems : (st.push t').items = st.items := if_neg hst
      rw [← hnest, ← hangle' st.counts st.angles, ← angles_push, ← hitems]
    have hbehind : Token.anglesBehind st.counts st.angles (t :: (inner ++ [t'])) =
        Token.anglesBehind st.counts st.angles inner := by
      rw [Token.anglesBehind, List.foldl_cons, hangle, List.foldl_append, List.foldl_cons, hangle']
      rfl
    rw [List.foldl_cons, List.foldl_append, hfold, List.foldl_cons, List.foldl_nil,
      hlast _ (Nat.succ_ne_zero _), hcounts, hangles, hbehind]
    rfl

end AtomState

/-! ### States that are read on alike -/

/-- The number of open angle brackets is looked at. -/
def Awaited.countsAngles : Awaited → Bool
  | comma | closeAngle => true
  | nothing | closeBrace => false

namespace AtomState

/-- From both states an atom is read on alike: the same groups are open, the outermost tokens have
registers in the same places, and the same number of angle brackets is open if that is looked at. -/
structure Agree (awaited : Awaited) (st st' : AtomState) : Prop where
  nesting : st.nesting = st'.nesting
  registers : st.items.map Token.isRegister = st'.items.map Token.isRegister
  angles : awaited.countsAngles = true → st.angles = st'.angles

theorem Agree.counts (h : st.Agree awaited st') : st.counts = st'.counts := by
  have hany (items : List Token) (i : Nat) :
      items[i]?.any Token.isRegister = (items.map Token.isRegister)[i]?.any id := by
    rw [List.getElem?_map, Option.any_map]
    rfl
  simp only [AtomState.counts, h.nesting, List.head?_eq_getElem?, apply_ite (Option.any _), hany,
    h.registers]

theorem Agree.push (h : st.Agree awaited st') (t : Token) :
    (st.push t).Agree awaited (st'.push t) where
  nesting := congrArg t.nest h.nesting
  registers := by
    show (if st.nesting = 0 then t :: st.items else st.items).map _ =
      (if st'.nesting = 0 then t :: st'.items else st'.items).map _
    rw [h.nesting]
    split
    · rw [List.map_cons, List.map_cons, h.registers]
    · exact h.registers
  angles hangles := by rw [angles_push, angles_push, h.counts, h.angles hangles]

theorem Agree.foldl_push (h : st.Agree awaited st') (ts : List Token) :
    (ts.foldl AtomState.push st).Agree awaited (ts.foldl AtomState.push st') := by
  induction ts generalizing st st' with
  | nil => exact h
  | cons t ts ih => exact ih (h.push t)

theorem Agree.endsAt (h : st.Agree awaited st') (t : Token) :
    awaited.endsAt st.angles t = awaited.endsAt st'.angles t := by
  cases hawaited : awaited.countsAngles with
  | true => rw [h.angles hawaited]
  | false => cases awaited <;> cases hawaited <;> cases t <;> rfl

theorem Agree.passes_iff (h : st.Agree awaited st') :
    st.Passes awaited ts ↔ st'.Passes awaited ts := by
  induction ts generalizing st st' with
  | nil => exact Iff.rfl
  | cons t ts ih => rw [Passes, Passes, h.nesting, h.endsAt, ih (h.push t)]

theorem Agree.endsBefore_iff (h : st.Agree awaited st') :
    st.EndsBefore awaited ts ↔ st'.EndsBefore awaited ts := by
  simp only [EndsBefore, h.nesting, h.endsAt]

theorem agree_group {k k' : Bracket} (hts : Token.Group k ts) (hts' : Token.Group k' ts')
    (hangles : awaited.countsAngles = true →
      Token.anglesBehind st.counts st.angles ts = Token.anglesBehind st.counts st.angles ts') :
    (ts.foldl AtomState.push st).Agree awaited (ts'.foldl AtomState.push st) := by
  obtain ⟨-, t, ht, hfold⟩ := @foldl_push_group awaited st _ _ hts
  obtain ⟨-, t', ht', hfold'⟩ := @foldl_push_group awaited st _ _ hts'
  rw [hfold, hfold']
  refine ⟨rfl, ?_, hangles⟩
  show (if st.nesting = 0 then t :: st.items else st.items).map _ =
    (if st.nesting = 0 then t' :: st.items else st.items).map _
  split
  · rw [List.map_cons, List.map_cons, ht, ht']
  · rfl

/-! ### Closing everything -/

/-- Brackets and angle brackets that close. -/
def closers (n m : Nat) : List Token := .replicate n .closeParen ++ .replicate m .closeAngle

/-- A token that takes so much off both counters, several times. -/
theorem foldl_push_replicate {t : Token} {p a : Nat}
    (ht : ∀ st : AtomState, (st.push t).nesting = st.nesting - p ∧ (st.push t).angles = st.angles - a)
    (n : Nat) :
    ((List.replicate n t).foldl push st).nesting = st.nesting - n * p ∧
      ((List.replicate n t).foldl push st).angles = st.angles - n * a := by
  induction n generalizing st with
  | zero => simp
  | succ n ih =>
    obtain ⟨hnesting, hangles⟩ := @ih (st.push t)
    rw [List.replicate_succ, List.foldl_cons, hnesting, hangles, (ht st).1, (ht st).2,
      Nat.sub_sub, Nat.sub_sub, Nat.succ_mul, Nat.succ_mul, Nat.add_comm p, Nat.add_comm a]
    exact ⟨rfl, rfl⟩

theorem foldl_push_closeParen (n : Nat) :
    ((List.replicate n Token.closeParen).foldl push st).nesting = st.nesting - n ∧
      ((List.replicate n Token.closeParen).foldl push st).angles = st.angles := by
  simpa using @foldl_push_replicate st .closeParen 1 0 (fun _ => ⟨rfl, rfl⟩) n

theorem foldl_push_closeAngle (m : Nat) :
    ((List.replicate m Token.closeAngle).foldl push st).nesting = st.nesting ∧
      ((List.replicate m Token.closeAngle).foldl push st).angles = st.angles - m := by
  simpa using @foldl_push_replicate st .closeAngle 0 1 (fun _ => ⟨rfl, rfl⟩) m

theorem foldl_push_closers (m : Nat) :
    ((closers st.nesting m).foldl push st).nesting = 0 ∧
      ((closers st.nesting m).foldl push st).angles = st.angles - m := by
  obtain ⟨hnesting, hangles⟩ := @foldl_push_closeParen st st.nesting
  rw [Nat.sub_self] at hnesting
  rw [closers, List.foldl_append, (foldl_push_closeAngle m).1, (foldl_push_closeAngle m).2,
    hnesting, hangles]
  exact ⟨rfl, rfl⟩

theorem passes_closeParen {n : Nat} (h : n ≤ st.nesting) :
    st.Passes awaited (.replicate n .closeParen) := by
  induction n generalizing st with
  | zero => trivial
  | succ n ih =>
    have hn : n ≤ (st.push .closeParen).nesting := Nat.le_sub_one_of_lt h
    exact ⟨by rw [decide_eq_false (by omega), Bool.false_and], ih hn⟩

theorem passes_closeAngle {m : Nat} (h : m ≤ st.angles) :
    st.Passes awaited (.replicate m .closeAngle) := by
  induction m generalizing st with
  | zero => trivial
  | succ m ih =>
    have hm : m ≤ (st.push .closeAngle).angles := Nat.le_sub_one_of_lt h
    have hpos : (st.angles == 0) = false := beq_eq_false_iff_ne.2 (by omega)
    have hends : awaited.endsAt st.angles .closeAngle = false := by
      show (awaited == .closeAngle && st.angles == 0) = false
      rw [hpos, Bool.and_false]
    exact ⟨by rw [hends, Bool.and_false], ih hm⟩

theorem passes_closers : st.Passes awaited (closers st.nesting st.angles) := by
  refine passes_append (passes_closeParen le_rfl) (passes_closeAngle ?_)
  rw [(foldl_push_closeParen _).2]

end AtomState

/-! ### Exchanging groups -/

/-- One run of lexemes can stand for the other behind `before`: whatever follows, an atom is read up
to a place with the one if it is with the other. -/
def Exchangeable (awaited : Awaited) (before group group' : List Lexeme) : Prop :=
  ∀ (size size' : Nat) (ls ls' rest rest' : List Lexeme), tokens ls = tokens ls' →
    tokens rest = tokens rest' →
      (Reads size awaited (before ++ group ++ ls) rest ↔
        Reads size' awaited (before ++ group' ++ ls') rest')

theorem Exchangeable.symm {before group group' : List Lexeme}
    (h : Exchangeable awaited before group group') : Exchangeable awaited before group' group :=
  fun size size' ls ls' rest rest' hls hrest =>
    (h size' size ls' ls rest' rest hls.symm hrest.symm).symm

variable {before group group' : List Lexeme} {k k' : Bracket}

/-- How far an atom has been read behind some lexemes. -/
def stateBehind (ls : List Lexeme) : AtomState := (tokens ls).foldl AtomState.push {}

theorem stateBehind_append (ls ls' : List Lexeme) :
    stateBehind (ls ++ ls') = (tokens ls').foldl AtomState.push (stateBehind ls) := by
  rw [stateBehind, tokens, List.map_append, List.foldl_append]
  rfl

theorem reads_group (hgroup : Token.Group k (tokens group)) {size : Nat} :
    Reads size awaited (before ++ group ++ ls) rest ↔
      AtomState.Passes awaited {} (tokens before) ∧
        (stateBehind (before ++ group)).Passes awaited (tokens ls) ∧
          ((tokens ls).foldl AtomState.push (stateBehind (before ++ group))).EndsBefore awaited
            (tokens rest) := by
  have htext : (rawText (before ++ group ++ ls)).isEmpty = false := by
    obtain ⟨l, hl, c, hc, hblank⟩ : ∃ l ∈ group, ∃ c ∈ l.text.toList, Text.isBlank c = false := by
      generalize hts : tokens group = ts at hgroup
      obtain @⟨t, t', inner, hopen, -, -⟩ := hgroup
      obtain ⟨l, group, rfl, rfl, -⟩ := List.map_eq_cons_iff.1 hts
      exact ⟨l, List.mem_cons_self, Token.exists_not_blank_of_opens? hopen⟩
    exact isEmpty_rawText (List.mem_append_left ls (List.mem_append_right before hl)) hc hblank
  have htokens : tokens (before ++ group ++ ls) = tokens before ++ (tokens group ++ tokens ls) := by
    simp
  have hpass := (@AtomState.foldl_push_group awaited (stateBehind before) _ _ hgroup).1
  rw [reads_iff htext, htokens, AtomState.passes_append_iff, AtomState.passes_append_iff,
    List.foldl_append, List.foldl_append, stateBehind_append]
  exact ⟨fun ⟨⟨hbefore, _, hls⟩, hend⟩ => ⟨hbefore, hls, hend⟩,
    fun ⟨hbefore, hls, hend⟩ => ⟨⟨hbefore, hpass, hls⟩, hend⟩⟩

theorem exchangeable_of_agree (hgroup : Token.Group k (tokens group))
    (hgroup' : Token.Group k' (tokens group'))
    (h : AtomState.Passes awaited {} (tokens before) →
      (stateBehind (before ++ group)).Agree awaited (stateBehind (before ++ group'))) :
    Exchangeable awaited before group group' := by
  intro size size' ls ls' rest rest' hls hrest
  rw [reads_group hgroup, reads_group hgroup', hls, hrest]
  refine and_congr_right fun hpass => ?_
  rw [(h hpass).passes_iff, ((h hpass).foldl_push _).endsBefore_iff]

theorem stateBehind_group (hgroup : Token.Group k (tokens group)) :
    (stateBehind (before ++ group)).nesting = (stateBehind before).nesting ∧
      (stateBehind (before ++ group)).angles =
        Token.anglesBehind (stateBehind before).counts (stateBehind before).angles
          (tokens group) := by
  obtain ⟨-, t, -, hfold⟩ := @AtomState.foldl_push_group .nothing (stateBehind before) _ _ hgroup
  rw [stateBehind_append, hfold]
  exact ⟨rfl, rfl⟩

/-- If an atom can be read up to some place behind the one group whenever it can behind the other,
then no more angle brackets are open behind it: they could not all be closed in time. -/
theorem Exchangeable.angles_le (h : Exchangeable awaited before group group')
    (hgroup : Token.Group k (tokens group)) (hgroup' : Token.Group k' (tokens group'))
    (hpass : AtomState.Passes awaited {} (tokens before)) (hawaited : awaited.countsAngles = true) :
    (stateBehind (before ++ group')).angles ≤ (stateBehind (before ++ group)).angles := by
  have hnesting :
      (stateBehind (before ++ group')).nesting = (stateBehind (before ++ group)).nesting :=
    (stateBehind_group hgroup').1.trans (stateBehind_group hgroup).1.symm
  generalize hst : stateBehind (before ++ group) = st at hnesting ⊢
  generalize hst' : stateBehind (before ++ group') = st' at hnesting ⊢
  obtain ⟨delimiter, hdelimiter⟩ : ∃ t, ∀ n, awaited.endsAt n t = true ↔ n = 0 := by
    cases awaited with
    | comma => exact ⟨.comma, fun n => by simp [Awaited.endsAt]⟩
    | closeAngle => exact ⟨.closeAngle, fun n => by simp [Awaited.endsAt]⟩
    | _ => cases hawaited
  -- behind the first group all that is open is closed: the groups, and then the angle brackets
  let ls : List Lexeme := (AtomState.closers st.nesting st.angles).map (Lexeme.mk "" · 0)
  have hls : tokens ls = AtomState.closers st.nesting st.angles := by
    simp [ls, tokens, Function.comp_def]
  have hread : Reads 0 awaited (before ++ group ++ ls) [⟨"", delimiter, 0⟩] := by
    obtain ⟨hclosed, hangles⟩ := @AtomState.foldl_push_closers st st.angles
    rw [reads_group hgroup, hst, hls]
    refine ⟨hpass, AtomState.passes_closers, hclosed, ?_⟩
    rintro _ ⟨⟩
    rw [hdelimiter, hangles, Nat.sub_self]
  obtain ⟨-, -, -, hend⟩ := (reads_group hgroup').1 ((h 0 0 ls ls _ _ rfl rfl).1 hread)
  have hends := hend delimiter rfl
  rw [hst', hls, ← hnesting, hdelimiter, (AtomState.foldl_push_closers _).2] at hends
  exact Nat.sub_eq_zero_iff_le.1 hends

/-- A group can stand for another one if it leaves the same number of angle brackets open, where
that is looked at and the group is reached at all. -/
theorem exchangeable_iff_angles (hgroup : Token.Group k (tokens group))
    (hgroup' : Token.Group k' (tokens group')) :
    Exchangeable awaited before group group' ↔
      (AtomState.Passes awaited {} (tokens before) → awaited.countsAngles = true →
        Token.anglesBehind (stateBehind before).counts (stateBehind before).angles (tokens group) =
          Token.anglesBehind (stateBehind before).counts (stateBehind before).angles
            (tokens group')) := by
  constructor
  · intro h hpass hawaited
    rw [← (stateBehind_group hgroup).2, ← (stateBehind_group hgroup').2]
    exact Nat.le_antisymm (h.symm.angles_le hgroup' hgroup hpass hawaited)
      (h.angles_le hgroup hgroup' hpass hawaited)
  · intro hangles
    refine exchangeable_of_agree hgroup hgroup' fun hpass => ?_
    rw [stateBehind_append, stateBehind_append]
    exact AtomState.agree_group hgroup hgroup' (hangles hpass)

/-- **When what is in a group does not matter** to the end of the atom around it: exactly if it does
not change the number of open angle brackets, where that is looked at and the group is reached at
all.  So it does not if only a closing bracket is awaited, if there are no angle brackets in the
group, or if none is open in front of it and there is no register in front of the outermost group
that it is in. -/
theorem exchangeable_group_iff (hgroup : Token.Group k (tokens group))
    (hgroup' : Token.Group k (tokens group')) :
    (Exchangeable awaited before group group' ↔
      (AtomState.Passes awaited {} (tokens before) → awaited.countsAngles = true →
        Token.anglesBehind (stateBehind before).counts (stateBehind before).angles (tokens group) =
          Token.anglesBehind (stateBehind before).counts (stateBehind before).angles
            (tokens group'))) ∧
      (awaited.countsAngles = false ∨
          (∀ t ∈ tokens group ++ tokens group', t ≠ .openAngle ∧ t ≠ .closeAngle) ∨
          (stateBehind before).angles = 0 ∧ (stateBehind before).counts = false →
        Exchangeable awaited before group group') := by
  refine ⟨exchangeable_iff_angles hgroup hgroup', fun h => ?_⟩
  rw [exchangeable_iff_angles hgroup hgroup']
  intro _ hawaited
  obtain hfree | hplain | ⟨hangles, hcounts⟩ := h
  · rw [hfree] at hawaited
    cases hawaited
  · rw [Token.anglesBehind_of_plain fun t ht => hplain t (List.mem_append_left _ ht),
      Token.anglesBehind_of_plain fun t ht => hplain t (List.mem_append_right _ ht)]
  · rw [hangles, hcounts, Token.anglesBehind_zero, Token.anglesBehind_zero]

/-- Behind a word the contents of a group do not matter, in front of a comma. -/
theorem exchangeable_group_call :
    (Token.Group .paren (tokens (Lexeme.ofText "()")) ∧
        Token.Group .paren (tokens (Lexeme.ofText "(a<b, >reg_$1)"))) ∧
      Exchangeable .comma (Lexeme.ofText "f") (Lexeme.ofText "()")
        (Lexeme.ofText "(a<b, >reg_$1)") ∧
      Reads 3 .comma (Lexeme.ofText "f" ++ Lexeme.ofText "()" ++ []) (Lexeme.ofText ",2") ∧
      Reads 3 .comma (Lexeme.ofText "f" ++ Lexeme.ofText "(a<b, >reg_$1)" ++ [])
        (Lexeme.ofText ",2") := by
  have hempty : tokens (Lexeme.ofText "()") = .openParen :: ([] ++ [.closeParen]) := by
    decide +kernel
  have hfull : tokens (Lexeme.ofText "(a<b, >reg_$1)") =
      .openParen :: ([.word "a", .openAngle, .word "b", .comma, .closeAngle, .register "reg_$1"] ++
        [.closeParen]) := by
    decide +kernel
  have hgroup : Token.Group .paren (tokens (Lexeme.ofText "()")) := hempty ▸ .mk rfl rfl .nil
  have hgroup' : Token.Group .paren (tokens (Lexeme.ofText "(a<b, >reg_$1)")) :=
    hfull ▸ .mk rfl rfl (by decide)
  have hexchange := (@exchangeable_group_iff .comma (Lexeme.ofText "f") _ _ _ hgroup hgroup').2
    (.inr (.inr ⟨by decide +kernel, by decide +kernel⟩))
  have hread : Reads 3 .comma (Lexeme.ofText "f" ++ Lexeme.ofText "()" ++ [])
      (Lexeme.ofText ",2") :=
    ⟨.atom "f()", by decide +kernel⟩
  exact ⟨⟨hgroup, hgroup'⟩, hexchange, hread, (hexchange 3 3 [] [] _ _ rfl rfl).1 hread⟩

/-- **What is in a group may move the end of an atom**: behind a register, an angle bracket in the
group keeps the atom from ending at a comma. -/
theorem not_exchangeable_group :
    ¬∀ (awaited : Awaited) (before group group' : List Lexeme) (k : Bracket),
      Token.Group k (tokens group) → Token.Group k (tokens group') →
        Exchangeable awaited before group group' := by
  intro hclaim
  have hplain : tokens (Lexeme.ofText "(a)") = .openParen :: ([.word "a"] ++ [.closeParen]) := by
    decide +kernel
  have hangle : tokens (Lexeme.ofText "(a<b)") =
      .openParen :: ([.word "a", .openAngle, .word "b"] ++ [.closeParen]) := by
    decide +kernel
  have hgroup : Token.Group .paren (tokens (Lexeme.ofText "(a)")) :=
    hplain ▸ .mk rfl rfl (by decide)
  have hgroup' : Token.Group .paren (tokens (Lexeme.ofText "(a<b)")) :=
    hangle ▸ .mk rfl rfl (by decide)
  have hexchange := hclaim .comma (Lexeme.ofText "reg_$0") _ _ _ hgroup hgroup'
  obtain ⟨v, hv⟩ := (hexchange 9 11 [] [] (Lexeme.ofText ",2") (Lexeme.ofText ",2") rfl rfl).1
    ⟨.atom "reg_$0(a)", by decide +kernel⟩
  have hrest : (atomValue 11 .comma
      (Lexeme.ofText "reg_$0" ++ Lexeme.ofText "(a<b)" ++ [] ++ Lexeme.ofText ",2")).map Prod.snd =
        .ok [] := by
    decide +kernel
  rw [hv] at hrest
  have hnil : Lexeme.ofText ",2" = [] := Except.ok.inj hrest
  exact absurd hnil (by decide +kernel)

end Value

end TestSynth
