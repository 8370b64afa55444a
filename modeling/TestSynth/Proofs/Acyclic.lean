import Mathlib.Data.Finset.Card
import Mathlib.Logic.Relation

/-!
# Relations without circles

The references of a case start at finitely many symbols.  If nobody who follows them comes back to
where it started, the symbols can be ranked: every reference leads to a smaller rank.

* `Acyclic.exists_rank`, `Acyclic.of_rank` : there are no circles exactly if there are such ranks.
-/

namespace TestSynth

variable {α : Type} {r : α → α → Prop}

/-- Whoever follows the relation never comes back. -/
def Acyclic (r : α → α → Prop) : Prop := ∀ a, ¬Relation.TransGen r a a

namespace Acyclic

theorem of_rank (rank : α → Nat) (hrank : ∀ a b, r a b → rank b < rank a) : Acyclic r := by
  intro a ha
  have hlt (b : α) (h : Relation.TransGen r a b) : rank b < rank a := by
    induction h with
    | single hab => exact hrank _ _ hab
    | tail _ hbc ih => exact Nat.lt_trans (hrank _ _ hbc) ih
  exact Nat.lt_irrefl _ (hlt a ha)

/-- **There are ranks**: how many sources one leads to. -/
theorem exists_rank (h : Acyclic r) (sources : List α) (hsources : ∀ a b, r a b → a ∈ sources) :
    ∃ rank : α → Nat, ∀ a b, r a b → rank b < rank a := by
  classical
  refine ⟨fun a => (sources.toFinset.filter (Relation.ReflTransGen r a)).card, fun a b hab => ?_⟩
  refine Finset.card_lt_card (Finset.ssubset_iff_subset_ne.2 ⟨fun x hx => ?_, fun heq => ?_⟩)
  · obtain ⟨hx, hbx⟩ := Finset.mem_filter.1 hx
    exact Finset.mem_filter.2 ⟨hx, .head hab hbx⟩
  · -- `a` leads to itself, and `b` would lead back to it
    have ha : a ∈ sources.toFinset.filter (Relation.ReflTransGen r a) :=
      Finset.mem_filter.2 ⟨List.mem_toFinset.2 (hsources a b hab), .refl⟩
    rw [← heq] at ha
    exact h a (.head' hab (Finset.mem_filter.1 ha).2)

end Acyclic

end TestSynth
