import TestSynth.Table
import TestSynth.Text.Blank
import TestSynth.Text.Split

/-!
# Solver models

A model is text with one line `symbol -> literal` for each symbol. Other lines say nothing, and of
two lines for one symbol the later counts.
-/

namespace TestSynth.Model

/-- Hexadecimal literals as C has them: `#x1A` becomes `0x1A`. -/
def respellHex : List Char → List Char
  | '#' :: 'x' :: s => '0' :: 'x' :: respellHex s
  | c :: s => c :: respellHex s
  | [] => []

/-- No mark reaches over a seam, unless an `x` is behind it. -/
theorem respellHex_append {w s : List Char} (hs : s.head? ≠ some 'x') :
    respellHex (w ++ s) = respellHex w ++ respellHex s := by
  fun_induction respellHex w with
  | case1 w ih => rw [List.cons_append, List.cons_append, respellHex, ih]; rfl
  | case2 c w hnot ih =>
    rw [List.cons_append, respellHex, ih, List.cons_append]
    -- what follows the first character is no `x`, or it was one before
    rintro s' rfl heq
    cases w with
    | nil => exact hs (by rw [← List.nil_append s, heq]; rfl)
    | cons d w =>
      obtain ⟨rfl, -⟩ := List.cons.inj heq
      exact hnot w rfl rfl
  | case3 => rfl

/-- The symbol of a line and its literal. -/
def line? (s : List Char) : Option (String × String) :=
  (Text.splitOnce "->".toList s).map fun (symbol, literal) =>
    (String.ofList (Text.trim symbol), String.ofList (Text.trim literal))

/-- The literals that a model gives. -/
def parse (model : String) : Table String :=
  .ofList ((Text.pieces (· == '\n') (respellHex model.toList)).filterMap line?)

end TestSynth.Model
