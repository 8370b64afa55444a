import Std.Data.ExtTreeMap

/-!
# Tables

A `Table` maps names to values. Its entries come in the order of their names, code point by code
point, and two tables with the same entries are equal.
-/

namespace TestSynth

/-- A finite map from names, in the order of the names. -/
abbrev Table (α : Type) := Std.ExtTreeMap String α

namespace Table

/-- All entries of `t`, and those of `other` under names that `t` has not. -/
def orElse {α : Type} (t other : Table α) : Table α := other ∪ t

/-- A name means what the first table says that knows it. -/
theorem getElem?_orElse {α : Type} (t other : Table α) (name : String) :
    (t.orElse other)[name]? = t[name]?.or other[name]? := by
  rw [orElse, Std.ExtTreeMap.getElem?_union]

theorem mem_of_getElem? {α : Type} {t : Table α} {name : String} {value : α}
    (h : t[name]? = some value) : name ∈ t :=
  Std.ExtTreeMap.mem_iff_isSome_getElem?.2 (by simp [h])

theorem exists_of_mem {α : Type} {t : Table α} {name : String} (h : name ∈ t) :
    ∃ value, t[name]? = some value :=
  Option.isSome_iff_exists.1 (Std.ExtTreeMap.mem_iff_isSome_getElem?.1 h)

theorem getElem?_filter_eq_some {α : Type} {t : Table α} {p : String → α → Bool} {name : String}
    {value : α} :
    (t.filter p)[name]? = some value ↔ t[name]? = some value ∧ p name value = true := by
  rw [Std.ExtTreeMap.getElem?_filter', Option.filter_eq_some_iff]

theorem size_erase_lt {α : Type} {t : Table α} {name : String} (h : name ∈ t) :
    (t.erase name).size < t.size := by
  have : t.size ≠ 0 := fun h0 => by
    rw [Std.ExtTreeMap.eq_empty_iff_size_eq_zero.2 h0] at h
    exact Std.ExtTreeMap.not_mem_empty h
  rw [Std.ExtTreeMap.size_erase, if_pos (Std.ExtTreeMap.mem_iff_contains.1 h)]
  omega

end Table

end TestSynth
