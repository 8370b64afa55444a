import TestSynth.Proofs.Registration

/-!
# Duplicates

A case is dropped as a duplicate when its digest is known.  What is hashed is one text: the name of
the function and the symbols and literals of the model, with a NUL character between them.  So, as
far as the hash tells messages apart, the digest tells cases apart by their *fields*, cut at every
NUL character.  Names and literals without NUL characters are fields as a whole; a literal that has
some looks like several.

* `Call.message_eq_iff` : two messages are the same if the fields are.
* `Call.digest_eq_iff` : so are two digests, if the hash tells the messages apart.
* `Call.Plain.fields_inj` : calls without NUL characters have the same fields only if they are the same.
* `TestFunction.dropped_iff_fields` : in every run, a case is dropped if an earlier one has its
  fields.
-/

namespace TestSynth

/-! ### Bytes of a text -/

namespace Utf8

/-- The bytes of a text. -/
def bytes (s : List Char) : List UInt8 := (String.ofList s).toUTF8.toList

theorem toList_loop (b : ByteArray) (i : Nat) (r : List UInt8) :
    ByteArray.toList.loop b i r = r.reverse ++ b.data.toList.drop i := by
  fun_induction ByteArray.toList.loop b i r with
  | case1 i r h ih =>
    have hi : i < b.data.toList.length := by simpa using h
    rw [ih, List.drop_eq_getElem_cons hi]
    simp [ByteArray.get!, h]
  | case2 i r h =>
    rw [List.drop_eq_nil_of_le (by simpa using Nat.le_of_not_lt h), List.append_nil]

theorem toList_eq (b : ByteArray) : b.toList = b.data.toList := by
  rw [ByteArray.toList, toList_loop]
  simp

theorem bytes_toList (s : String) : bytes s.toList = s.toUTF8.toList := by
  rw [bytes, String.ofList_toList]

theorem bytes_append (s t : List Char) : bytes (s ++ t) = bytes s ++ bytes t := by
  rw [bytes, bytes, bytes, String.ofList_append]
  simp only [String.toUTF8, String.toByteArray_append, toList_eq, ByteArray.data_append,
    Array.toList_append]

theorem bytes_nul : bytes ['\x00'] = [0] := by decide +kernel

theorem bytes_cons_nul (s : List Char) : bytes ('\x00' :: s) = 0 :: bytes s := by
  rw [← List.singleton_append, bytes_append, bytes_nul, List.singleton_append]

theorem bytes_inj {s t : List Char} (h : bytes s = bytes t) : s = t := by
  simp only [bytes, toList_eq, Array.toList_inj, String.toUTF8] at h
  have := String.toByteArray_inj.1 (ByteArray.ext h)
  rw [← String.toList_ofList (l := s), this, String.toList_ofList]

end Utf8

/-! ### Pieces of a text -/

namespace Text

theorem intercalate_pieces (m : Char) (s : List Char) :
    [m].intercalate (pieces (· == m) s) = s := by
  induction s with
  | nil => rfl
  | cons c s ih =>
    obtain ⟨p, ps, hs⟩ := List.exists_cons_of_ne_nil (@pieces_ne_nil (· == m) s)
    rw [hs] at ih
    cases hc : c == m with
    | true =>
      rw [@pieces_cons_of_sep (· == m) _ hc, hs, List.intercalate_cons_cons, ih,
        eq_of_beq hc]
      rfl
    | false =>
      rw [@pieces_cons_of_not_sep (· == m) _ hc _ _ _ hs, ← ih]
      cases ps with
      | nil => simp [List.intercalate]
      | cons q ps => simp [List.intercalate_cons_cons]

/-- The pieces tell the text, if there is one separator only. -/
theorem pieces_inj {m : Char} {s t : List Char} (h : pieces (· == m) s = pieces (· == m) t) :
    s = t := by
  rw [← intercalate_pieces m s, h, intercalate_pieces]

end Text

/-! ### Fields of a call -/

namespace Call

/-- The bytes that are hashed for a call. -/
def message (call : Call) : List UInt8 := caseBytes call.function call.values

/-- A text, cut at every NUL character. -/
def cut (s : String) : List (List Char) := Text.pieces (· == '\x00') s.toList

/-- The fields of a call: its function, then its symbols and literals in the order of the symbols,
each of them cut at every NUL character. -/
def fields (call : Call) : List (List Char) :=
  cut call.function ++ call.values.toList.flatMap fun (symbol, literal) => cut symbol ++ cut literal

/-- No name and no literal of a call has a NUL character. -/
structure Plain (call : Call) : Prop where
  function : '\x00' ∉ call.function.toList
  values : ∀ entry ∈ call.values.toList, '\x00' ∉ entry.1.toList ∧ '\x00' ∉ entry.2.toList

/-- The text that is hashed for some symbols and literals. -/
def entriesText (entries : List (String × String)) : List Char :=
  entries.flatMap fun (symbol, literal) => '\x00' :: symbol.toList ++ '\x00' :: literal.toList

theorem message_eq_bytes (call : Call) :
    call.message = Utf8.bytes (call.function.toList ++ entriesText call.values.toList) := by
  have hentries (entries : List (String × String)) : Utf8.bytes (entriesText entries) =
      entries.flatMap fun (symbol, literal) =>
        0 :: symbol.toUTF8.toList ++ 0 :: literal.toUTF8.toList := by
    induction entries with
    | nil => decide +kernel
    | cons entry entries ih =>
      obtain ⟨symbol, literal⟩ := entry
      rw [entriesText, List.flatMap_cons, Utf8.bytes_append, ← entriesText, ih, List.flatMap_cons]
      simp only [Utf8.bytes_append, List.cons_append, Utf8.bytes_cons_nul, Utf8.bytes_toList]
  rw [message, caseBytes, Utf8.bytes_append, Utf8.bytes_toList, hentries]

theorem fields_eq_pieces (call : Call) :
    call.fields = Text.pieces (· == '\x00')
      (call.function.toList ++ entriesText call.values.toList) := by
  rw [fields]
  generalize call.values.toList = entries
  generalize hs : call.function = s
  clear hs
  -- the text grows by a symbol and a literal at a time, each behind a separator
  suffices h : ∀ s : List Char, Text.pieces (· == '\x00') (s ++ entriesText entries) =
      Text.pieces (· == '\x00') s ++
        entries.flatMap fun (symbol, literal) => cut symbol ++ cut literal by
    exact (h s.toList).symm
  induction entries with
  | nil => intro s; simp [entriesText]
  | cons entry entries ih =>
    intro s
    obtain ⟨symbol, literal⟩ := entry
    have htext : s ++ entriesText ((symbol, literal) :: entries) =
        s ++ '\x00' :: (symbol.toList ++ '\x00' :: (literal.toList ++ entriesText entries)) := by
      simp [entriesText]
    rw [htext, Text.pieces_append_sep (by rfl), Text.pieces_append_sep (by rfl), ih,
      List.flatMap_cons]
    simp only [cut, List.append_assoc]

/-- **Two messages are the same if the fields are**, and only then. -/
theorem message_eq_iff {a b : Call} : a.message = b.message ↔ a.fields = b.fields := by
  rw [message_eq_bytes, message_eq_bytes, fields_eq_pieces, fields_eq_pieces]
  exact ⟨fun h => by rw [Utf8.bytes_inj h], fun h => by rw [Text.pieces_inj h]⟩

theorem cut_of_plain {s : String} (h : '\x00' ∉ s.toList) : cut s = [s.toList] := by
  refine Text.pieces_of_not_sep fun c hc => ?_
  rw [beq_eq_false_iff_ne]
  rintro rfl
  exact h hc

theorem Plain.fields_eq {call : Call} (h : call.Plain) :
    call.fields = call.function.toList ::
      call.values.toList.flatMap fun (symbol, literal) => [symbol.toList, literal.toList] := by
  rw [fields, cut_of_plain h.function, List.singleton_append]
  congr 1
  refine List.flatMap_congr fun entry hentry => ?_
  obtain ⟨hsymbol, hliteral⟩ := h.values entry hentry
  obtain ⟨symbol, literal⟩ := entry
  simp only [cut_of_plain hsymbol, cut_of_plain hliteral, List.singleton_append]

/-- **Plain calls with the same fields are the same.** -/
theorem Plain.fields_inj {a b : Call} (ha : a.Plain) (hb : b.Plain) (h : a.fields = b.fields) :
    a = b := by
  rw [ha.fields_eq, hb.fields_eq] at h
  obtain ⟨hfunction, hentries⟩ := List.cons.inj h
  have hvalues : a.values.toList = b.values.toList := by
    generalize a.values.toList = as at hentries
    generalize b.values.toList = bs at hentries
    induction as generalizing bs with
    | nil => cases bs with
      | nil => rfl
      | cons entry bs => simp at hentries
    | cons entry as ih => cases bs with
      | nil => simp at hentries
      | cons entry' bs =>
        simp only [List.flatMap_cons, List.cons_append, List.nil_append, List.cons.injEq,
          String.toList_inj] at hentries
        obtain ⟨hsymbol, hliteral, hentries⟩ := hentries
        rw [ih bs hentries, Prod.ext hsymbol hliteral]
  obtain ⟨f, v⟩ := a
  obtain ⟨g, w⟩ := b
  obtain rfl : f = g := String.toList_inj.1 hfunction
  obtain rfl : v = w := Std.ExtTreeMap.toList_inj.1 hvalues
  rfl

end Call

/-! ### Digests -/

/-- The hash tells these messages apart. -/
def Sha256.Separates (messages : List (List UInt8)) : Prop :=
  ∀ m ∈ messages, ∀ m' ∈ messages, hash m = hash m' → m = m'

/-- **Two calls have the same digest if they have the same fields**, and only then. -/
theorem Call.digest_eq_iff {a b : Call} {messages : List (List UInt8)}
    (hsha : Sha256.Separates messages) (ha : a.message ∈ messages) (hb : b.message ∈ messages) :
    a.digest = b.digest ↔ a.fields = b.fields := by
  rw [← message_eq_iff]
  exact ⟨hsha _ ha _ hb, congrArg Sha256.hash⟩

/-! ### Runs -/

namespace TestFunction

variable (d : Declarations) (o : Options)

/-- A case for which a test of a function is to be made. -/
structure Request where
  function : String
  given : Case

/-- What is registered for a request. -/
def Request.call (q : Request) : Call := ⟨q.function, (q.given.intake d).values⟩

/-- The outcomes of some requests, one after the other. -/
def outcomes : List Request → Registry → List (Except Error (Option TestFunction))
  | [], _ => []
  | q :: qs, r =>
    let outcome := ofCase d o q.function q.given r
    outcome.1 :: outcomes qs outcome.2

variable {d o}

/-- There is no test and no error exactly if the registry rejects the case; in any case the registry
goes on. -/
theorem ofCase_spec (q : Request) (r : Registry) :
    ((ofCase d o q.function q.given r).1 = .ok none ↔ (r.register (q.call d).digest).1 = none) ∧
      (ofCase d o q.function q.given r).2 = (r.register (q.call d).digest).2 := by
  have hregister : r.registerCase q.function (q.given.intake d).values =
      r.register (q.call d).digest := rfl
  simp only [ofCase, hregister]
  obtain ⟨id?, r'⟩ := r.register (q.call d).digest
  cases id? with
  | none => exact ⟨iff_of_true rfl rfl, rfl⟩
  | some id =>
    refine ⟨iff_of_false ?_ nofun, rfl⟩
    cases d.parameters? q.function with
    | none => nofun
    | some parameters =>
      intro h
      obtain ⟨statements, -, h⟩ := bind_ok h
      cases h

theorem getElem?_outcomes (qs : List Request) (r : Registry) (i : Nat) :
    (outcomes d o qs r)[i]? = some (.ok none) ↔
      (r.answers (qs.map fun q => (q.call d).digest))[i]? = some none := by
  induction qs generalizing r i with
  | nil => simp [outcomes, Registry.answers]
  | cons q qs ih =>
    obtain ⟨hdropped, hregistry⟩ := ofCase_spec (d := d) (o := o) q r
    cases i with
    | zero =>
      simp only [outcomes, List.map_cons, Registry.answers, List.getElem?_cons_zero,
        Option.some.injEq, hdropped]
    | succ i =>
      simp only [outcomes, List.map_cons, Registry.answers, List.getElem?_cons_succ, hregistry]
      exact ih _ i

theorem dropped_iff (qs : List Request) {i : Nat} (hi : i < qs.length) :
    (outcomes d o qs {})[i]? = some (.ok none) ↔
      ∃ (j : Nat) (hj : j < i), (qs[j].call d).digest = (qs[i].call d).digest := by
  have hi' : i < (qs.map fun q => (q.call d).digest).length := by rwa [List.length_map]
  have hanswer := Registry.isSome_getElem_answers {} _ hi' (by rwa [Registry.length_answers])
  rw [getElem?_outcomes, List.getElem?_eq_getElem (by rwa [Registry.length_answers]),
    Option.some.injEq, ← Option.not_isSome_iff_eq_none, hanswer, and_iff_right (List.not_mem_nil)]
  simp only [List.getElem_map, not_forall, ne_eq, not_not]

/-- **Deduplication drops cases with the same fields**, and no others, as far as the hash tells
messages apart.  Among calls without NUL characters these are the duplicates. -/
theorem dropped_iff_fields (d : Declarations) (o : Options) :
    (∀ a b : Call, Sha256.Separates [a.message, b.message] →
      (a.digest = b.digest ↔ a.fields = b.fields) ∧
      (a.Plain → b.Plain → (a.digest = b.digest ↔ a = b))) ∧
    ∀ qs : List Request, Sha256.Separates (qs.map fun q => (q.call d).message) →
      ∀ (i : Nat) (hi : i < qs.length),
        ((outcomes d o qs {})[i]? = some (.ok none) ↔
          ∃ (j : Nat) (hj : j < i), (qs[j].call d).fields = (qs[i].call d).fields) ∧
        ((∀ q ∈ qs, (q.call d).Plain) →
          ((outcomes d o qs {})[i]? = some (.ok none) ↔
            ∃ (j : Nat) (hj : j < i), qs[j].call d = qs[i].call d)) := by
  have hplain {a b : Call} (ha : a.Plain) (hb : b.Plain) : a.fields = b.fields ↔ a = b :=
    ⟨ha.fields_inj hb, fun h => by rw [h]⟩
  constructor
  · intro a b hsha
    have hdigest : a.digest = b.digest ↔ a.fields = b.fields :=
      Call.digest_eq_iff hsha (by simp) (by simp)
    exact ⟨hdigest, fun ha hb => by rw [hdigest, hplain ha hb]⟩
  · intro qs hsha i hi
    have hfields : (outcomes d o qs {})[i]? = some (.ok none) ↔
        ∃ (j : Nat) (hj : j < i), (qs[j].call d).fields = (qs[i].call d).fields := by
      rw [dropped_iff qs hi]
      refine exists_congr fun j => exists_congr fun hj => Call.digest_eq_iff hsha ?_ ?_
      · exact List.mem_map.2 ⟨_, List.getElem_mem (Nat.lt_trans hj hi), rfl⟩
      · exact List.mem_map.2 ⟨_, List.getElem_mem hi, rfl⟩
    refine ⟨hfields, fun hall => ?_⟩
    rw [hfields]
    exact exists_congr fun j => exists_congr fun hj =>
      hplain (hall _ (List.getElem_mem _)) (hall _ (List.getElem_mem _))

/-- A function with a number as its argument. -/
def numberFunction : Declarations where
  functions := .ofList [("foo", [TypedName.mk "x" "int"])]

/-- A model with two literals. -/
def twoLiterals : Case where
  model := "a -> b\nc -> d"

/-- A model with one literal that has NUL characters in it. -/
def nulLiteral : Case where
  model := "a -> b\x00c\x00d"

/-- Of three requests the last repeats the first, and the one between them does not. -/
theorem dropped_twoLiterals :
    let repeated : Request := ⟨"foo", twoLiterals⟩
    let other : Request := ⟨"bar", twoLiterals⟩
    let qs := [repeated, other, repeated]
    (∀ q ∈ qs, (q.call numberFunction).Plain) ∧
      Sha256.Separates (qs.map fun q => (q.call numberFunction).message) ∧
      (outcomes numberFunction {} qs {})[2]? = some (.ok none) ∧
      (outcomes numberFunction {} qs {})[1]? ≠ some (.ok none) := by
  intro repeated other qs
  have hplain : ∀ q ∈ qs, (q.call numberFunction).Plain := by
    intro q hq
    simp only [qs, List.mem_cons, List.not_mem_nil, or_false] at hq
    rcases hq with rfl | rfl | rfl <;> exact ⟨by decide +kernel, by decide +kernel⟩
  have hsha : Sha256.Separates (qs.map fun q => (q.call numberFunction).message) := by
    unfold Sha256.Separates
    decide +kernel
  refine ⟨hplain, hsha, ?_, ?_⟩
  · exact (((dropped_iff_fields numberFunction {}).2 qs hsha 2 (by decide)).2 hplain).2
      ⟨0, by decide, rfl⟩
  · rw [ne_eq, (((dropped_iff_fields numberFunction {}).2 qs hsha 1 (by decide)).2 hplain)]
    rintro ⟨j, hj, h⟩
    obtain rfl : j = 0 := by omega
    have hfunction : "foo" = "bar" := congrArg Call.function h
    exact absurd hfunction (by decide)

/-- A literal with NUL characters looks like several: a case is dropped that is no duplicate. -/
theorem dropped_nulLiteral :
    let first : Request := ⟨"foo", nulLiteral⟩
    let second : Request := ⟨"foo", twoLiterals⟩
    (first.call numberFunction).values ≠ (second.call numberFunction).values ∧
      (first.call numberFunction).digest = (second.call numberFunction).digest ∧
      (outcomes numberFunction {} [first, second] {})[1]? = some (.ok none) := by
  intro first second
  have hdigest : (first.call numberFunction).digest = (second.call numberFunction).digest := by
    decide +kernel
  refine ⟨fun h => absurd (congrArg Std.ExtTreeMap.size h) (by decide +kernel), hdigest, ?_⟩
  rw [dropped_iff [first, second] (by decide)]
  exact ⟨0, by decide, hdigest⟩

end TestFunction

end TestSynth
