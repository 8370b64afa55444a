import TestSynth.Proofs.Paths

/-!
# Writing files

A path that leads anywhere leads to the place that its steps lead to, whatever else is in the tree.
A file is written to that place, and nothing that was reached before is out of reach afterwards.

* `FileTree.place?_eq_target`, `FileTree.write?_eq_some` : paths that can be read or written lead
  to their targets.
* `FileTree.Keeps.place?` : what can be reached stays where it is when files are written.
* `FileTree.read?_eq_some_iff` : what is read is the file at the place that the path leads to.
-/

namespace TestSynth

namespace FileTree

open TestSynth.Path (Component)

/-! ### Targets -/

/-- The place that some steps lead to. -/
def reach (place : Place) : List Component → Place
  | [] => place
  | .up :: steps => reach place.tail steps
  | .name name :: steps => reach (name :: place) steps
  | _ :: steps => reach place steps

theorem reach_append (place : Place) (steps steps' : List Component) :
    reach place (steps ++ steps') = reach (reach place steps) steps' := by
  induction steps generalizing place with
  | nil => rfl
  | cons step steps ih => cases step <;> exact ih _

/-- The place where a path begins. -/
def start (t : FileTree) (p : Path) : Place := if p.isAbsolute then [] else t.current

/-- The place that a path leads to, if it leads anywhere. -/
def target (t : FileTree) (p : Path) : Place := reach (t.start p) p.steps

variable {t t' : FileTree} {place q : Place} {p : Path} {parts : List (List Char)}

/-- A part of a path leads from one place to another. -/
inductive Leads (t : FileTree) (place : Place) (part : List Char) : Place → Prop
  | idle (h : ∀ step ∈ Path.component? part, step = .root ∨ step = .here) :
      Leads t place part place
  | up (h : Path.component? part = some .up) : Leads t place part place.tail
  | name {name : String} (h : Path.component? part = some (.name name))
      (hlimit : name.utf8ByteSize ≤ nameLimit)
      (hpresent : (t.node? (name :: place)).isSome = true) :
      Leads t place part (name :: place)

theorem walk_cons_iff {part : List Char} :
    t.walk place (part :: parts) = .ok q ↔ t.node? place = some .directory ∧
      ∃ next, Leads t place part next ∧ t.walk next parts = .ok q := by
  rw [walk]
  constructor
  · intro h
    split at h
    · cases h
    · cases h
    · next hdirectory =>
      refine ⟨hdirectory, ?_⟩
      cases hstep : Path.component? part with
      | none =>
        rw [hstep] at h
        exact ⟨place, .idle (by simp [hstep]), h⟩
      | some step =>
        rw [hstep] at h
        cases step with
        | root | here => exact ⟨place, .idle (by simp [hstep]), h⟩
        | up => exact ⟨_, .up hstep, h⟩
        | name name =>
          simp only at h
          split at h
          · cases h
          · next hlimit =>
            split at h
            · next hpresent => exact ⟨_, .name hstep (Nat.le_of_not_lt hlimit) hpresent, h⟩
            · cases h
  · rintro ⟨hdirectory, next, hleads, h⟩
    simp only [hdirectory]
    cases hleads with
    | idle hidle =>
      cases hstep : Path.component? part with
      | none => exact h
      | some step =>
        rcases hidle step hstep with rfl | rfl <;> exact h
    | up hstep =>
      simp only [hstep]
      exact h
    | name hstep hlimit hpresent =>
      simp only [hstep, if_neg (Nat.not_lt.2 hlimit), if_pos hpresent]
      exact h

theorem Leads.eq_reach {part : List Char} (h : Leads t place part q) (steps : List Component) :
    reach place ((Path.component? part).toList ++ steps) = reach q steps := by
  cases h with
  | idle hidle =>
    cases hstep : Path.component? part with
    | none => rfl
    | some step => rcases hidle step hstep with rfl | rfl <;> rfl
  | up hstep => rw [hstep]; rfl
  | name hstep => rw [hstep]; rfl

theorem walk_eq_reach (h : t.walk place parts = .ok q) :
    q = reach place (parts.filterMap Path.component?) := by
  induction parts generalizing place with
  | nil => exact (Except.ok.inj h).symm
  | cons part parts ih =>
    obtain ⟨-, next, hleads, hwalk⟩ := walk_cons_iff.1 h
    have happend : (part :: parts).filterMap Path.component? =
        (Path.component? part).toList ++ parts.filterMap Path.component? := by
      rw [List.filterMap_cons]
      cases Path.component? part <;> rfl
    rw [happend, hleads.eq_reach]
    exact ih hwalk

theorem walk_append {behind : List (List Char)} {place' : Place}
    (h : t.walk place parts = .ok place') (hbehind : t.walk place' behind = .ok q) :
    t.walk place (parts ++ behind) = .ok q := by
  induction parts generalizing place with
  | nil =>
    cases h
    exact hbehind
  | cons part parts ih =>
    obtain ⟨hdirectory, next, hleads, hwalk⟩ := walk_cons_iff.1 h
    exact walk_cons_iff.2 ⟨hdirectory, next, hleads, ih hwalk⟩

theorem follow_eq_reach (h : t.follow p parts = .ok q) :
    q = reach (t.start p) (parts.filterMap Path.component?) := by
  rw [follow] at h
  split at h
  · cases h
  · exact walk_eq_reach h

/-- **A path that leads somewhere leads to its target.** -/
theorem place?_eq_target (h : t.place? p = some q) : q = t.target p := by
  rw [place?] at h
  split at h
  · cases h
  · match hfollow : t.follow p (Path.parts p.text.toList) with
    | .error e =>
      rw [hfollow] at h
      cases h
    | .ok place =>
      rw [hfollow] at h
      cases h
      exact follow_eq_reach hfollow

/-- Something new is put one step below a directory. -/
theorem newPlace_eq_ok (h : t.newPlace p parts = .ok q) : ∃ front last name place,
    parts = front ++ [last] ∧ Path.component? last = some (.name name) ∧ q = name :: place ∧
      t.follow p front = .ok place ∧ t.node? place = some .directory ∧
        name.utf8ByteSize ≤ nameLimit := by
  rw [newPlace] at h
  split at h
  · cases h
  · next place hfollow =>
    split at h
    · next name hdirectory hlast =>
      obtain ⟨last, hlast, hname⟩ := Option.bind_eq_some_iff.1 hlast
      split at h
      · cases h
      · next hlimit =>
        cases h
        obtain ⟨front, rfl⟩ := List.getLast?_eq_some_iff.1 hlast
        rw [List.dropLast_concat] at hfollow
        exact ⟨front, last, name, place, rfl, hname, rfl, hfollow, hdirectory,
          Nat.le_of_not_lt hlimit⟩
    · cases h
    · cases h

/-! ### Nodes -/

theorem lookup_filter_ne {α β : Type} [BEq α] [LawfulBEq α] {a b : α} (h : b ≠ a)
    (l : List (α × β)) : (l.filter (·.1 != a)).lookup b = l.lookup b := by
  induction l with
  | nil => rfl
  | cons entry l ih =>
    obtain ⟨c, x⟩ := entry
    by_cases hc : c = a
    · have hbc : (b == c) = false := by simpa [hc] using h
      rw [List.filter_cons_of_neg (by simp [hc]), List.lookup_cons, hbc, ih]
    · rw [List.filter_cons_of_pos (by simpa using hc), List.lookup_cons, List.lookup_cons, ih]

theorem node?_put_of_ne (node : Node) (h : q ≠ place) : (t.put place node).node? q = t.node? q := by
  cases q with
  | nil => rfl
  | cons name up =>
    show ((place, node) :: t.nodes.filter (·.1 != place)).lookup (name :: up) = _
    rw [List.lookup_cons, beq_false_of_ne h]
    exact lookup_filter_ne h t.nodes

theorem node?_put_self (node : Node) (h : place ≠ []) :
    (t.put place node).node? place = some node := by
  cases place with
  | nil => exact absurd rfl h
  | cons name up => exact List.lookup_cons_self

/-! ### What is kept -/

/-- Whatever can be reached in the first tree can be reached in the second one. -/
structure Keeps (t t' : FileTree) : Prop where
  current : t'.current = t.current
  directory : ∀ q, t.node? q = some .directory → t'.node? q = some .directory
  present : ∀ q, (t.node? q).isSome = true → (t'.node? q).isSome = true

namespace Keeps

theorem refl (t : FileTree) : Keeps t t := ⟨rfl, fun _ => id, fun _ => id⟩

theorem trans {t'' : FileTree} (h : Keeps t t') (h' : Keeps t' t'') : Keeps t t'' :=
  ⟨h'.current.trans h.current, fun q hq => h'.directory q (h.directory q hq),
    fun q hq => h'.present q (h.present q hq)⟩

theorem printed (t : FileTree) (text : String) : Keeps t { t with printed := text } :=
  ⟨rfl, fun _ => id, fun _ => id⟩

theorem put (h : t.node? place ≠ some .directory) (text : String) :
    Keeps t (t.put place (.file text)) where
  current := rfl
  directory q hq := by
    have hne : q ≠ place := by
      rintro rfl
      exact h hq
    rw [node?_put_of_ne _ hne, hq]
  present q hq := by
    by_cases hne : q = place
    · subst hne
      have hroot : q ≠ [] := by
        rintro rfl
        exact h rfl
      rw [node?_put_self _ hroot]
      rfl
    · rw [node?_put_of_ne _ hne, hq]

theorem walk (h : Keeps t t') (hwalk : t.walk place parts = .ok q) :
    t'.walk place parts = .ok q := by
  induction parts generalizing place with
  | nil => exact hwalk
  | cons part parts ih =>
    obtain ⟨hdirectory, next, hleads, hwalk⟩ := walk_cons_iff.1 hwalk
    refine walk_cons_iff.2 ⟨h.directory place hdirectory, next, ?_, ih hwalk⟩
    cases hleads with
    | idle hidle => exact .idle hidle
    | up hstep => exact .up hstep
    | name hstep hlimit hpresent => exact .name hstep hlimit (h.present _ hpresent)

theorem follow (h : Keeps t t') (hfollow : t.follow p parts = .ok q) :
    t'.follow p parts = .ok q := by
  rw [FileTree.follow] at hfollow ⊢
  split at hfollow
  · cases hfollow
  · next hlimit =>
    rw [if_neg hlimit, h.current]
    exact h.walk hfollow

/-- **What can be reached stays where it is.** -/
theorem place? (h : Keeps t t') (hplace : t.place? p = some q) : t'.place? p = some q := by
  rw [FileTree.place?] at hplace ⊢
  split at hplace
  · cases hplace
  · next hempty =>
    rw [if_neg hempty]
    match hfollow : t.follow p (Path.parts p.text.toList) with
    | .error e =>
      rw [hfollow] at hplace
      cases hplace
    | .ok place =>
      rw [hfollow] at hplace
      rw [h.follow hfollow]
      exact hplace

end Keeps

/-! ### Writing -/

theorem newPlace_eq_target (h : t.newPlace p (Path.parts p.text.toList) = .ok q) :
    q = t.target p ∧ ∃ name up, q = name :: up ∧ '/' ∉ name.toList := by
  obtain ⟨front, last, name, place, hparts, hname, rfl, hfollow, -, -⟩ := newPlace_eq_ok h
  refine ⟨?_, name, place, rfl, ?_⟩
  · rw [target, Path.steps, Path.stepsOf, hparts, List.filterMap_append, reach_append,
      ← follow_eq_reach hfollow]
    simp only [List.filterMap_cons, hname, List.filterMap_nil, reach]
  · rw [Path.toList_of_component? hname]
    exact Path.not_slash_of_mem_parts (s := p.text.toList)
      (hparts ▸ List.mem_append_right front List.mem_cons_self)

/-- Once a file is there, the path that it was put to leads to it. -/
theorem place?_put (h : t.newPlace p (Path.parts p.text.toList) = .ok q)
    (hfile : t.node? q ≠ some .directory) (text : String) :
    (t.put q (.file text)).place? p = some q := by
  obtain ⟨front, last, name, place, hparts, hname, rfl, hfollow, hdirectory, hlimit⟩ :=
    newPlace_eq_ok h
  have hkeeps : Keeps t (t.put (name :: place) (.file text)) := .put hfile text
  have hempty : p.text.isEmpty = false := by
    rw [String.isEmpty_eq_false_iff]
    intro hempty
    have hmem : last ∈ Path.parts p.text.toList :=
      hparts ▸ List.mem_append_right front List.mem_cons_self
    rw [hempty] at hmem
    rw [List.mem_singleton.1 hmem] at hname
    cases hname
  -- the path leads to the directory as before, and from there to the file
  have hfollow' := hkeeps.follow hfollow
  rw [follow] at hfollow'
  split at hfollow'
  · cases hfollow'
  next hlimit' =>
  have hpresent : ((t.put (name :: place) (.file text)).node? (name :: place)).isSome = true := by
    rw [node?_put_self _ (List.cons_ne_nil _ _)]
    rfl
  have hlast : (t.put (name :: place) (.file text)).walk place [last] = .ok (name :: place) :=
    walk_cons_iff.2 ⟨hkeeps.directory place hdirectory, _, .name hname hlimit hpresent, rfl⟩
  rw [place?, hempty, hparts, follow, if_neg hlimit', walk_append hfollow' hlast]
  rfl

/-- **A file is written to the target of its path**, where there is no directory. -/
theorem write?_eq_some {text : String} (h : t.write? p text = some t') :
    t' = t.put (t.target p) (.file text) ∧ t.node? (t.target p) ≠ some .directory ∧
      t'.place? p = some (t.target p) ∧
        ∃ name up, t.target p = name :: up ∧ '/' ∉ name.toList := by
  rw [write?] at h
  match hplace : t.newPlace p (Path.parts p.text.toList) with
  | .error e =>
    rw [hplace] at h
    cases h
  | .ok q =>
    rw [hplace] at h
    simp only at h
    split at h
    · cases h
    next hfile =>
    cases h
    obtain ⟨rfl, hname⟩ := newPlace_eq_target hplace
    exact ⟨rfl, hfile, place?_put hplace hfile text, hname⟩

/-! ### Reading -/

theorem read?_eq_some_iff {text : String} :
    t.read? p = some text ↔ ∃ q, t.place? p = some q ∧ t.node? q = some (.file text) := by
  rw [read?, at?]
  cases hplace : t.place? p with
  | none => simp
  | some q =>
    rw [Option.bind_some]
    cases hnode : t.node? q with
    | none => simp [hnode]
    | some node => cases node <;> simp [hnode]

/-- No name in the tree contains a slash. -/
def IsProper (t : FileTree) : Prop :=
  ∀ name up node, (name :: up, node) ∈ t.nodes → '/' ∉ name.toList

theorem IsProper.names? (h : t.IsProper) {names : List String} (hnames : t.names? p = some names)
    {name : String} (hname : name ∈ names) : '/' ∉ name.toList := by
  rw [FileTree.names?] at hnames
  split at hnames
  · split at hnames
    · cases hnames
      obtain ⟨⟨place, node⟩, hentry, heq⟩ := List.mem_filterMap.1 hname
      cases place with
      | nil => cases heq
      | cons head up =>
        simp only at heq
        split at heq
        · cases heq
          exact h _ _ _ hentry
        · cases heq
    · cases hnames
  · cases hnames

theorem IsProper.put (h : t.IsProper) {name : String} {up : Place} (hname : '/' ∉ name.toList)
    (node : Node) : (t.put (name :: up) node).IsProper := by
  intro name' up' node' hentry
  rcases List.mem_cons.1 hentry with heq | hentry
  · cases heq
    exact hname
  · exact h _ _ _ (List.mem_filter.1 hentry).1

end FileTree

end TestSynth
