import TestSynth.Proofs.Cuts

/-!
# Slices of a text

A slice is cut out of a text between two byte offsets.  There is none if the offsets are the wrong
way round, reach beyond the end or lie inside a character.  The text of some consecutive lexemes is
the slice from the start of the first one to the end of the last one.

* `Text.slice?_eq_some_iff` : which slices there are, and what is in them.
* `Lexeme.IsBoundary` : the offsets at which a token starts or stops, and the end of the text.
* `Lexeme.slice?_sourceText` : the text of consecutive lexemes is a slice between two of them.
-/

namespace TestSynth

open Lexeme (bytes bytes_append bytes_toList)

namespace Text

/-- What is behind the first `n` bytes of a text, if a character ends there. -/
def dropBytes? : (n : Nat) → List Char → Option (List Char)
  | 0, s => some s
  | _ + 1, [] => none
  | n + 1, c :: s => if c.utf8Size ≤ n + 1 then dropBytes? (n + 1 - c.utf8Size) s else none

/-- The part of a text between two byte offsets. -/
def slice? (s : List Char) (start stop : Nat) : Option (List Char) :=
  if start ≤ stop then do
    let behind ← dropBytes? start s
    let rest ← dropBytes? (stop - start) behind
    return behind.take (behind.length - rest.length)
  else none

variable {s rest part : List Char} {n start stop : Nat}

theorem bytes_cons (c : Char) (s : List Char) : bytes (c :: s) = c.utf8Size + bytes s := by
  rw [← List.singleton_append, bytes_append, bytes, String.ofList_cons, String.utf8ByteSize_append,
    String.utf8ByteSize_singleton]
  rfl

theorem dropBytes?_eq_some_iff :
    dropBytes? n s = some rest ↔ ∃ front, s = front ++ rest ∧ bytes front = n := by
  induction s generalizing n with
  | nil =>
    cases n with
    | zero =>
      rw [dropBytes?, Option.some.injEq]
      refine ⟨fun h => ⟨[], h, rfl⟩, ?_⟩
      rintro ⟨front, h, -⟩
      rw [(List.append_eq_nil_iff.1 h.symm).2]
    | succ n =>
      refine ⟨nofun, ?_⟩
      rintro ⟨front, h, hbytes⟩
      rw [(List.append_eq_nil_iff.1 h.symm).1] at hbytes
      cases hbytes
  | cons c s ih =>
    have hpos := c.utf8Size_pos
    cases n with
    | zero =>
      rw [dropBytes?, Option.some.injEq]
      refine ⟨fun h => ⟨[], h, rfl⟩, ?_⟩
      rintro ⟨front, h, hbytes⟩
      rw [Lexeme.eq_nil_of_bytes hbytes, List.nil_append] at h
      exact h
    | succ n =>
      rw [dropBytes?]
      constructor
      · intro h
        split at h
        · obtain ⟨front, rfl, hbytes⟩ := ih.1 h
          refine ⟨c :: front, rfl, ?_⟩
          rw [bytes_cons]
          omega
        · cases h
      · rintro ⟨front, h, hbytes⟩
        cases front with
        | nil => cases hbytes
        | cons d front =>
          obtain ⟨rfl, rfl⟩ := List.cons.inj h
          rw [bytes_cons] at hbytes
          rw [if_pos (by omega)]
          exact ih.2 ⟨front, rfl, by omega⟩

/-- **A slice is a part of the text** that starts and stops at the offsets. -/
theorem slice?_eq_some_iff :
    slice? s start stop = some part ↔
      ∃ before behind, s = before ++ (part ++ behind) ∧ bytes before = start ∧
        bytes (before ++ part) = stop := by
  rw [slice?]
  constructor
  · intro h
    split at h
    · next hle =>
      obtain ⟨behind, hbehind, h⟩ := Option.bind_eq_some_iff.1 h
      obtain ⟨rest, hrest, h⟩ := Option.bind_eq_some_iff.1 h
      cases h
      obtain ⟨before, rfl, rfl⟩ := dropBytes?_eq_some_iff.1 hbehind
      obtain ⟨front, rfl, hbytes⟩ := dropBytes?_eq_some_iff.1 hrest
      have hfront : (front ++ rest).take ((front ++ rest).length - rest.length) = front := by simp
      refine ⟨before, rest, by rw [hfront], rfl, ?_⟩
      rw [hfront, bytes_append]
      omega
    · cases h
  · rintro ⟨before, behind, rfl, rfl, rfl⟩
    rw [bytes_append, if_pos (Nat.le_add_right _ _), Nat.add_sub_cancel_left,
      dropBytes?_eq_some_iff.2 ⟨before, rfl, rfl⟩]
    show (dropBytes? (bytes part) (part ++ behind)).bind _ = _
    rw [dropBytes?_eq_some_iff.2 ⟨part, rfl, rfl⟩]
    simp

theorem le_of_slice? (h : slice? s start stop = some part) : start ≤ stop := by
  rw [slice?] at h
  split at h
  · assumption
  · cases h

end Text

namespace Lexeme

variable {source : String} {pos : Nat} {s : List Char} {run taken rest : List Lexeme} {l : Lexeme}

/-! ### Boundaries -/

/-- A token starts or stops at the byte offset, or the text ends there. -/
def IsBoundary (source : String) (n : Nat) : Prop :=
  (∃ l ∈ ofText source, n = l.start ∨ n = l.stop) ∨ n = source.utf8ByteSize

theorem IsBoundary.le (h : IsBoundary source n) : n ≤ source.utf8ByteSize := by
  have hstop {l : Lexeme} (hl : l ∈ ofText source) : l.stop ≤ source.utf8ByteSize := by
    simpa [bytes_toList] using stop_le hl
  rcases h with ⟨l, hl, rfl | rfl⟩ | rfl
  · exact (start_lt_stop hl).le.trans (hstop hl)
  · exact hstop hl
  · exact Nat.le_refl _

theorem IsBoundary.slice?_self (h : IsBoundary source n) :
    Text.slice? source.toList n n = some [] := by
  have hcut {before behind : List Char} (hsource : source.toList = before ++ behind)
      (hn : n = bytes before) : Text.slice? source.toList n n = some [] :=
    Text.slice?_eq_some_iff.2 ⟨before, behind, hsource, hn.symm, by rw [hn, List.append_nil]⟩
  rcases h with ⟨l, hl, hn⟩ | hn
  · obtain ⟨before, behind, hsource, hstart⟩ := within_of_mem hl
    rw [Nat.zero_add] at hstart
    rcases hn with hn | hn
    · exact hcut hsource (hn.trans hstart)
    · rw [← List.append_assoc] at hsource
      exact hcut hsource (by rw [hn, stop, hstart, bytes_append, bytes_toList])
  · exact hcut (List.append_nil _).symm (hn.trans (bytes_toList source).symm)

/-! ### The text of consecutive lexemes -/

/-- Some lexemes with the blanks in front of them, up to the end of the last one. -/
def gappedText (ls : List Lexeme) : List Char :=
  (String.join (ls.map fun l => l.gap ++ l.text)).toList

theorem gappedText_cons (l : Lexeme) (ls : List Lexeme) :
    gappedText (l :: ls) = l.gap.toList ++ (sourceText (l :: ls)).toList := by
  rw [gappedText, List.map_cons, String.join_cons, String.append_assoc, String.toList_append]
  rfl

/-- A text is its first lexemes and what is read behind them. -/
theorem exists_gappedText_append (h : readFrom pos s = taken ++ rest) :
    ∃ behind, s = gappedText taken ++ behind ∧
      readFrom (pos + bytes (gappedText taken)) behind = rest ∧
        ∀ l ∈ taken.getLast?, l.stop = pos + bytes (gappedText taken) := by
  induction taken generalizing pos s with
  | nil => exact ⟨s, rfl, h, nofun⟩
  | cons l taken ih =>
    rcases blank_or_scan? s with hblank | ⟨t, s', hscan⟩
    · rw [readFrom_of_blank hblank] at h
      cases h
    rw [readFrom_of_scan? hscan] at h
    obtain ⟨rfl, htail⟩ := List.cons.inj h
    obtain ⟨behind, rfl, hrest, hlast⟩ := ih htail
    have htext : gappedText (⟨String.ofList (s.takeWhile isGap), t,
        pos + bytes (s.takeWhile isGap)⟩ :: taken) =
        s.takeWhile isGap ++ t.spelling.toList ++ gappedText taken := by
      simp [gappedText, text]
    have hbytes : pos + bytes (s.takeWhile isGap) + bytes t.spelling.toList +
        bytes (gappedText taken) =
          pos + bytes (s.takeWhile isGap ++ t.spelling.toList ++ gappedText taken) := by
      rw [bytes_append, bytes_append]
      omega
    rw [htext]
    refine ⟨behind, ?_, by rw [← hbytes, hrest], fun m hm => ?_⟩
    · rw [List.append_assoc]
      exact eq_append_of_scan? hscan
    · rw [← hbytes]
      cases taken with
      | nil =>
        cases hm
        rw [stop, text, ← bytes_toList]
        rfl
      | cons m' taken =>
        rw [List.getLast?_cons_cons] at hm
        exact hlast m hm

theorem start_eq_of_readFrom {ls : List Lexeme} (h : readFrom pos s = l :: ls) :
    l.start = pos + bytes l.gap.toList := by
  rcases blank_or_scan? s with hblank | ⟨t, s', hscan⟩
  · rw [readFrom_of_blank hblank] at h
    cases h
  · rw [readFrom_of_scan? hscan] at h
    obtain ⟨rfl, -⟩ := List.cons.inj h
    rw [String.toList_ofList]

/-- **The text of consecutive lexemes is a slice**, from the start of the first one to the end of
the last one. -/
theorem slice?_sourceText {last : Lexeme} (h : ofText source = taken ++ (l :: run ++ rest))
    (hlast : (l :: run).getLast? = some last) :
    Text.slice? source.toList l.start last.stop = some (sourceText (l :: run)).toList := by
  obtain ⟨behind, hsource, hbehind, -⟩ := exists_gappedText_append h
  obtain ⟨behind', rfl, -, hstop⟩ := exists_gappedText_append hbehind
  have hstart := start_eq_of_readFrom hbehind
  rw [gappedText_cons] at hsource hstop
  refine Text.slice?_eq_some_iff.2 ⟨gappedText taken ++ l.gap.toList, behind', ?_, ?_, ?_⟩
  · rw [hsource]
    simp
  · rw [hstart, bytes_append]
    omega
  · rw [hstop last hlast, bytes_append, bytes_append, bytes_append]
    omega

end Lexeme

end TestSynth
