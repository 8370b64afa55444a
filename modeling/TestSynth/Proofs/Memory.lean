import TestSynth.Code.Allocation

/-!
# Memory

The memory of a test while its buffers are allocated: the place that is filled, and buffers that
hold addresses of other buffers.  Every read and every write is checked: it fails outside of the
buffers that there are, and so does a read of what was not set.

A buffer is allocated behind all others, and its address is written to a location that stood there
before.  So addresses grow on the way from the place inwards, a write changes nothing on the way to
where it happens (`Memory.Path.of_frame`), and it spoils no buffers that hang at other locations of
the same buffer (`Memory.Filled.of_frame`).
-/

namespace TestSynth

/-- A buffer. -/
structure Block where
  /-- The type that says how large an element is. -/
  element : String
  /-- The address that each element holds, if it was set. -/
  cells : List (Option Nat)
  deriving DecidableEq, Repr

/-- Where an address can be kept: in the place itself, or in an element of a buffer. -/
inductive Location where
  | place
  | cell (address index : Nat)
  deriving DecidableEq, Repr

/-- What an execution can do wrong. -/
inductive Fault where
  /-- The statement does not allocate. -/
  | unreadable
  /-- No address was written to a location that is read. -/
  | unset (l : Location)
  /-- A location is in no buffer. -/
  | outside (l : Location)
  /-- A loop has the counter of a loop around it. -/
  | counterInUse (counter : String)
  deriving DecidableEq, Repr

/-- The place that is filled and the buffers so far, each known by its number. -/
structure Memory where
  place : Option Nat := none
  blocks : List Block := []
  deriving DecidableEq, Repr

/-- The locations are ordered by the buffers that they are in. -/
def Location.rank : Location → Nat
  | place => 0
  | cell address _ => address + 1

namespace Memory

/-- The content of a location that there is. -/
def content? (m : Memory) : Location → Option (Option Nat)
  | .place => some m.place
  | .cell address index => do (← m.blocks[address]?).cells[index]?

/-- The address that a location holds. -/
def read (m : Memory) (l : Location) : Except Fault Nat :=
  match m.content? l with
  | none => .error (.outside l)
  | some none => .error (.unset l)
  | some (some address) => .ok address

/-- The location that some indices lead to, one after the other. -/
def locate (m : Memory) (indices : List Nat) : Except Fault Location :=
  indices.foldlM (fun l i => do return .cell (← m.read l) i) .place

/-- The buffer that some indices lead to. -/
def blockAt (m : Memory) (indices : List Nat) : Except Fault Block := do
  let address ← m.read (← m.locate indices)
  match m.blocks[address]? with
  | some block => return block
  | none => .error (.outside (.cell address 0))

/-- The memory with an address at a location. -/
def set (m : Memory) (address : Nat) : Location → Memory
  | .place => { m with place := some address }
  | .cell a i =>
    { m with blocks := m.blocks.modify a fun b => { b with cells := b.cells.set i (some address) } }

/-- The memory with another buffer behind all others. -/
def push (m : Memory) (b : Block) : Memory := { m with blocks := m.blocks ++ [b] }

/-- Allocates a buffer of `count` elements and writes its address to a location. -/
def allocate (m : Memory) (l : Location) (element : String) (count : Nat) : Except Fault Memory :=
  match m.content? l with
  | none => .error (.outside l)
  | some _ => .ok ((m.push ⟨element, List.replicate count none⟩).set m.blocks.length l)

variable {m m' m'' : Memory} {l l' : Location} {indices : List Nat} {a i : Nat}

theorem read_of_content? (h : m.content? l = some (some a)) : m.read l = .ok a := by
  rw [read, h]

theorem content?_cell {b : Block} (h : m.blocks[a]? = some b) (i : Nat) :
    m.content? (.cell a i) = b.cells[i]? := by
  rw [content?, h]
  rfl

theorem rank_le_of_content? {c : Option Nat} (h : m.content? l = some c) :
    l.rank ≤ m.blocks.length := by
  cases l with
  | place => exact Nat.zero_le _
  | cell a i =>
    obtain ⟨b, hb, -⟩ := Option.bind_eq_some_iff.1 h
    exact (List.getElem?_eq_some_iff.1 hb).1

/-! ### What a write changes -/

/-- At most the content of `l` has changed, and buffers were added. -/
structure Frame (m m' : Memory) (l : Location) : Prop where
  /-- All other locations have the content that they had. -/
  content (l' : Location) (c : Option Nat) :
    l' ≠ l → m.content? l' = some c → m'.content? l' = some c
  /-- All buffers have the elements that they had. -/
  block (a : Nat) (b : Block) : m.blocks[a]? = some b →
    ∃ b', m'.blocks[a]? = some b' ∧ b'.element = b.element ∧ b'.cells.length = b.cells.length

namespace Frame

theorem refl (m : Memory) (l : Location) : Frame m m l :=
  ⟨fun _ _ _ h => h, fun _ b h => ⟨b, h, rfl, rfl⟩⟩

theorem trans (h : Frame m m' l) (h' : Frame m' m'' l) : Frame m m'' l where
  content l' c hne hc := h'.content l' c hne (h.content l' c hne hc)
  block a b hb := by
    obtain ⟨b', hb', helement, hlength⟩ := h.block a b hb
    obtain ⟨b'', hb'', helement', hlength'⟩ := h'.block a b' hb'
    exact ⟨b'', hb'', helement'.trans helement, hlength'.trans hlength⟩

/-- A change in a buffer that was added does not count. -/
theorem trans_of_new (h : Frame m m' l) (h' : Frame m' m'' l') (hnew : m.content? l' = none) :
    Frame m m'' l where
  content k c hne hc := by
    refine h'.content k c ?_ (h.content k c hne hc)
    rintro rfl
    rw [hnew] at hc
    cases hc
  block a b hb := by
    obtain ⟨b', hb', helement, hlength⟩ := h.block a b hb
    obtain ⟨b'', hb'', helement', hlength'⟩ := h'.block a b' hb'
    exact ⟨b'', hb'', helement'.trans helement, hlength'.trans hlength⟩

end Frame

theorem getElem?_push {b : Block} (h : m.blocks[a]? = some b) (b' : Block) :
    (m.push b').blocks[a]? = some b := by
  rw [push, List.getElem?_append_left (List.getElem?_eq_some_iff.1 h).1, h]

theorem frame_push (m : Memory) (b : Block) (l : Location) : Frame m (m.push b) l where
  content l' c _ hc := by
    cases l' with
    | place => exact hc
    | cell a i =>
      obtain ⟨b', hb', hc⟩ := Option.bind_eq_some_iff.1 hc
      rw [content?_cell (getElem?_push hb' b), hc]
  block a b' hb' := ⟨b', getElem?_push hb' b, rfl, rfl⟩

theorem getElem?_set {b : Block} (h : m.blocks[a]? = some b) (address : Nat) (l : Location) :
    ∃ b', (m.set address l).blocks[a]? = some b' ∧ b'.element = b.element ∧
      b'.cells.length = b.cells.length ∧
      ∀ i, Location.cell a i ≠ l → b'.cells[i]? = b.cells[i]? := by
  cases l with
  | place => exact ⟨b, h, rfl, rfl, fun _ _ => rfl⟩
  | cell a' i' =>
    by_cases ha : a' = a
    · subst ha
      refine ⟨{ b with cells := b.cells.set i' (some address) }, ?_, rfl, List.length_set, ?_⟩
      · rw [set, List.getElem?_modify_eq, h]
        rfl
      · intro i hne
        exact List.getElem?_set_ne fun hi => hne (congrArg _ hi.symm)
    · refine ⟨b, ?_, rfl, rfl, fun _ _ => rfl⟩
      show (m.blocks.modify a' _)[a]? = some b
      rw [List.getElem?_modify, h]
      simp [ha]

theorem frame_set (m : Memory) (address : Nat) (l : Location) : Frame m (m.set address l) l where
  content l' c hne hc := by
    cases l' with
    | place =>
      cases l with
      | place => exact absurd rfl hne
      | cell => exact hc
    | cell a i =>
      obtain ⟨b, hb, hc⟩ := Option.bind_eq_some_iff.1 hc
      obtain ⟨b', hb', -, -, hcells⟩ := getElem?_set hb address l
      rw [content?_cell hb', hcells i hne, hc]
  block a b hb := by
    obtain ⟨b', hb', helement, hlength, -⟩ := getElem?_set hb address l
    exact ⟨b', hb', helement, hlength⟩

theorem content?_set {c : Option Nat} (h : m.content? l = some c) (address : Nat) :
    (m.set address l).content? l = some (some address) := by
  cases l with
  | place => rfl
  | cell a i =>
    obtain ⟨b, hb, hc⟩ := Option.bind_eq_some_iff.1 h
    have hset : (m.set address (.cell a i)).blocks[a]? =
        some { b with cells := b.cells.set i (some address) } := by
      rw [set, List.getElem?_modify_eq, hb]
      rfl
    rw [content?_cell hset]
    exact List.getElem?_set_self (List.getElem?_eq_some_iff.1 hc).1

/-- An allocation succeeds at a location that there is, and changes no other. -/
theorem allocate_ok {c : Option Nat} (h : m.content? l = some c) (element : String) (count : Nat) :
    ∃ m', m.allocate l element count = .ok m' ∧ Frame m m' l ∧
      m'.content? l = some (some m.blocks.length) ∧
      ∃ b, m'.blocks[m.blocks.length]? = some b ∧ b.element = element ∧ b.cells.length = count := by
  obtain ⟨b, hb⟩ : ∃ b : Block, b = ⟨element, List.replicate count none⟩ := ⟨_, rfl⟩
  have hnew : (m.push b).blocks[m.blocks.length]? = some b := List.getElem?_concat_length
  have hlocation : ∃ c, (m.push b).content? l = some c := by
    cases l with
    | place => exact ⟨_, rfl⟩
    | cell a i =>
      obtain ⟨b', hb', hc⟩ := Option.bind_eq_some_iff.1 h
      exact ⟨c, (content?_cell (getElem?_push hb' b) i).trans hc⟩
  obtain ⟨c', hc'⟩ := hlocation
  obtain ⟨b', hb', helement, hlength, -⟩ := getElem?_set hnew m.blocks.length l
  refine ⟨(m.push b).set m.blocks.length l, ?_, (frame_push m b l).trans (frame_set _ _ l),
    content?_set hc' _, b', hb', ?_, ?_⟩
  · rw [allocate, h, hb]
  · rw [helement, hb]
  · rw [hlength, hb, List.length_replicate]

/-! ### The way to a location -/

/-- The indices lead to a location, by way of addresses that grow. -/
inductive Path (m : Memory) : List Nat → Location → Prop where
  | nil : Path m [] .place
  | concat {indices : List Nat} {l : Location} {a : Nat} (i : Nat) :
    Path m indices l → m.content? l = some (some a) → l.rank ≤ a →
    Path m (indices ++ [i]) (.cell a i)

theorem Path.locate (h : Path m indices l) : m.locate indices = .ok l := by
  induction h with
  | nil => rfl
  | concat i _ hl _ ih =>
    rw [Memory.locate] at ih ⊢
    simp only [List.foldlM_append, ih, List.foldlM_cons, List.foldlM_nil]
    show (m.read _ >>= _) >>= _ = _
    rw [read_of_content? hl]
    rfl

/-- A change behind a location leaves the way to it. -/
theorem Path.of_frame (h : Path m indices l) (hframe : Frame m m' l') (hrank : l.rank ≤ l'.rank) :
    Path m' indices l := by
  induction h with
  | nil => exact .nil
  | @concat indices l a i _ hl habove ih =>
    have hlt : l.rank < l'.rank := Nat.lt_of_lt_of_le (Nat.lt_succ_of_le habove) hrank
    have hne : l ≠ l' := fun h => absurd (h ▸ hlt) (Nat.lt_irrefl _)
    exact .concat i (ih (Nat.le_of_lt hlt)) (hframe.content l _ hne hl) habove

/-! ### Filled places -/

variable (m) (t : Tables) (type root : String)

/-- The location `l` holds the address `a` of a buffer that stands behind it and has the elements
that are stored `depth` dereferences away. -/
structure Holds (depth : Nat) (l : Location) (a : Nat) : Prop where
  content : m.content? l = some (some a)
  above : l.rank ≤ a
  block : ∃ b, m.blocks[a]? = some b ∧ elementType? type depth = some b.element ∧
    b.cells.length = t.neededSize root depth

/-- The location `l` has a buffer, and so has each of its elements for the `below` levels of
pointers that follow. -/
def Filled : (below depth : Nat) → Location → Prop
  | 0, depth, l => ∃ a, Holds m t type root depth l a
  | below + 1, depth, l => ∃ a, Holds m t type root depth l a ∧
      ∀ i < t.neededSize root depth, Filled below (depth + 1) (.cell a i)

variable {m t type root}

theorem Holds.of_frame {depth : Nat} (h : Holds m t type root depth l a) (hframe : Frame m m' l')
    (hne : l ≠ l') : Holds m' t type root depth l a := by
  obtain ⟨b, hb, helement, hlength⟩ := h.block
  obtain ⟨b', hb', helement', hlength'⟩ := hframe.block a b hb
  exact ⟨hframe.content l _ hne h.content, h.above, b', hb', helement'.symm ▸ helement,
    hlength'.trans hlength⟩

/-- What is filled stays so, if nothing in front of it or at its side changes. -/
theorem Filled.of_frame {below depth : Nat} (h : Filled m t type root below depth l)
    (hframe : Frame m m' l') (hne : l ≠ l') (hrank : l'.rank ≤ l.rank) :
    Filled m' t type root below depth l := by
  induction below generalizing depth l with
  | zero =>
    obtain ⟨a, ha⟩ := h
    exact ⟨a, ha.of_frame hframe hne⟩
  | succ below ih =>
    obtain ⟨a, ha, hinner⟩ := h
    refine ⟨a, ha.of_frame hframe hne, fun i hi => ih (hinner i hi) ?_ ?_⟩
    · rintro rfl
      exact absurd (Nat.le_trans hrank ha.above) (Nat.not_succ_le_self a)
    · exact Nat.le_succ_of_le (Nat.le_trans hrank ha.above)

theorem allocate_holds (t : Tables) (root : String) {depth : Nat} {element : String}
    {c : Option Nat} (h : m.content? l = some c)
    (helement : elementType? type depth = some element) :
    ∃ m', m.allocate l element (t.neededSize root depth) = .ok m' ∧ Frame m m' l ∧
      m'.Holds t type root depth l m.blocks.length := by
  obtain ⟨m', hm', hframe, hset, b, hb, rfl, hlength⟩ :=
    allocate_ok h element (t.neededSize root depth)
  exact ⟨m', hm', hframe, hset, rank_le_of_content? h, b, hb, helement, hlength⟩

variable (m m' t type root) in
/-- The location `l` was given the buffer `a`, and of its elements the first `turns` have been
filled. -/
structure Filling (below depth : Nat) (l : Location) (a turns : Nat) : Prop where
  frame : Frame m m' l
  holds : m'.Holds t type root depth l a
  filled : ∀ i < turns, m'.Filled t type root below (depth + 1) (.cell a i)

theorem Filling.turn {below depth turns : Nat}
    (h : Filling m m' t type root below depth l m.blocks.length turns)
    (hframe : Frame m' m'' (.cell m.blocks.length turns))
    (hfilled : m''.Filled t type root below (depth + 1) (.cell m.blocks.length turns)) :
    Filling m m'' t type root below depth l m.blocks.length (turns + 1) where
  frame := by
    refine h.frame.trans_of_new hframe ?_
    rw [content?, List.getElem?_eq_none (Nat.le_refl _)]
    rfl
  holds := by
    refine h.holds.of_frame hframe ?_
    rintro rfl
    exact absurd h.holds.above (Nat.not_succ_le_self _)
  filled i hi := by
    rcases Nat.lt_succ_iff_lt_or_eq.1 hi with hi | rfl
    · refine (h.filled i hi).of_frame hframe ?_ (Nat.le_refl _)
      simpa using Nat.ne_of_lt hi
    · exact hfilled

theorem Filled.exists_holds {below depth : Nat} (h : Filled m t type root below depth l) :
    ∃ a, Holds m t type root depth l a := by
  cases below with
  | zero => exact h
  | succ below => exact h.imp fun _ => And.left

/-- The buffers of a filled place are found by their indices. -/
theorem Filled.blockAt {below depth : Nat} (h : Filled m t type root below depth l)
    (hpath : Path m indices l) (more : List Nat) (hmore : more.length ≤ below)
    (hsize : ∀ k, ∀ hk : k < more.length, more[k] < t.neededSize root (depth + k)) :
    ∃ b, m.blockAt (indices ++ more) = .ok b ∧
      elementType? type (depth + more.length) = some b.element ∧
      b.cells.length = t.neededSize root (depth + more.length) := by
  induction more generalizing below depth l indices with
  | nil =>
    obtain ⟨a, ha⟩ := h.exists_holds
    obtain ⟨b, hb, helement, hlength⟩ := ha.block
    refine ⟨b, ?_, helement, hlength⟩
    rw [List.append_nil, Memory.blockAt, hpath.locate]
    show (m.read l >>= _) = _
    rw [read_of_content? ha.content]
    show (match m.blocks[a]? with | some block => _ | none => _) = _
    rw [hb]
    rfl
  | cons i more ih =>
    obtain ⟨below, rfl⟩ := Nat.exists_eq_add_of_lt (Nat.lt_of_lt_of_le (Nat.succ_pos _) hmore)
    rw [Nat.zero_add] at h hmore
    obtain ⟨a, ha, hinner⟩ := h
    have hnext := ih (hinner i (hsize 0 (Nat.succ_pos _))) (hpath.concat i ha.content ha.above)
      (Nat.le_of_succ_le_succ hmore) fun k hk => by
        rw [Nat.add_right_comm]
        exact hsize (k + 1) (Nat.succ_lt_succ hk)
    rw [List.append_assoc, Nat.add_right_comm] at hnext
    exact hnext

end Memory

end TestSynth
