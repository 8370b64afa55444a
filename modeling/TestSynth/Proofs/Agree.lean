import Mathlib.Data.List.Perm.Basic

/-!
# Outcomes that agree

Two computations agree if both fail, with whatever errors, or both have results that are related.

* `Agree.bind`, `Agree.mapM`, `Agree.trans` : computations that agree step by step agree.
* `Agree.mapM_perm` : what is done with the members of a list can be done in another order.
-/

namespace TestSynth

/-- Both outcomes are failures, or both are results that are related. -/
inductive Agree {ε ε' α β : Type} (P : α → β → Prop) : Except ε α → Except ε' β → Prop
  | error (e : ε) (e' : ε') : Agree P (.error e) (.error e')
  | ok {a : α} {b : β} (h : P a b) : Agree P (.ok a) (.ok b)

namespace Agree

variable {ε ε' ε'' δ δ' α α' β β' γ : Type} {P : α → β → Prop} {Q : α' → β' → Prop}

theorem bind {x : Except ε α} {y : Except ε' β} {f : α → Except ε α'} {g : β → Except ε' β'}
    (h : Agree P x y) (hfg : ∀ a b, P a b → Agree Q (f a) (g b)) : Agree Q (x >>= f) (y >>= g) := by
  cases h with
  | error e e' => exact .error e e'
  | ok h => exact hfg _ _ h

theorem mapError {x : Except ε α} {y : Except ε' β} (h : Agree P x y) (f : ε → δ) (g : ε' → δ') :
    Agree P (x.mapError f) (y.mapError g) := by
  cases h with
  | error e e' => exact .error _ _
  | ok h => exact .ok h

theorem trans {R : β → γ → Prop} {S : α → γ → Prop} {x : Except ε α} {y : Except ε' β}
    {z : Except ε'' γ} (h : Agree P x y) (h' : Agree R y z) (hS : ∀ a b c, P a b → R b c → S a c) :
    Agree S x z := by
  cases h with
  | error e e' =>
    cases h' with
    | error _ e'' => exact .error e e''
  | ok h =>
    cases h' with
    | ok h' => exact .ok (hS _ _ _ h h')

theorem mapM {f g : α → Except ε β} {k : α → α} {l : β → β} {as : List α}
    (h : ∀ a ∈ as, Agree (fun b b' => b' = l b) (f a) (g (k a))) :
    Agree (fun bs bs' => bs' = bs.map l) (as.mapM f) ((as.map k).mapM g) := by
  induction as with
  | nil => exact .ok rfl
  | cons a as ih =>
    rw [List.map_cons, List.mapM_cons, List.mapM_cons]
    refine (h a List.mem_cons_self).bind fun b b' hb => ?_
    refine (ih fun a ha => h a (List.mem_cons_of_mem _ ha)).bind fun bs bs' hbs => ?_
    subst hb hbs
    exact .ok rfl

/-- What is done with the members of a list can be done in another order. -/
theorem mapM_perm (f : α → Except ε β) {as as' : List α} (h : as'.Perm as) :
    Agree (fun bs bs' => bs'.Perm bs) (as.mapM f) (as'.mapM f) := by
  induction h with
  | nil => exact .ok .nil
  | cons a _ ih =>
    rw [List.mapM_cons, List.mapM_cons]
    cases f a with
    | error e => exact .error e e
    | ok b => exact ih.bind fun bs bs' hbs => .ok (hbs.cons b)
  | swap a a' as =>
    simp only [List.mapM_cons]
    -- the first failure of two may be another one, but there is one
    cases f a with
    | error e =>
      cases f a' with
      | error e' => exact .error _ _
      | ok b' => exact .error _ _
    | ok b =>
      cases f a' with
      | error e' => exact .error _ _
      | ok b' =>
        cases as.mapM f with
        | error e => exact .error _ _
        | ok bs => exact .ok (.swap _ _ bs)
  | trans _ _ ih ih' => exact ih'.trans ih fun _ _ _ h h' => h'.trans h

end Agree

end TestSynth
