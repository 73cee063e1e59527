/-!
# Arenas

An `Arena α` owns values under numeric handles.  Handles are issued in ascending order from zero and
are never issued twice: erasing a value leaves its handle dangling for good.

The view of an arena is `Arena.get?`.  Each operation has one equation through it (`get?_insert`,
`get?_modify`, `get?_erase`, `get?_filterMap`), `ext_get?` says that it determines the arena, and
`mem_entries` that the list of entries holds exactly what the view finds.
-/

namespace StateMerging

/-- Values under handles; `none` marks a handle whose value was erased. -/
structure Arena (α : Type) where
  /-- One slot for every handle issued so far. -/
  slots : Array (Option α)
  deriving DecidableEq

namespace Arena

variable {α : Type}

/-- The arena that has issued no handle. -/
def empty : Arena α := ⟨#[]⟩

instance : EmptyCollection (Arena α) := ⟨empty⟩

instance : Inhabited (Arena α) := ⟨∅⟩

/-! ## Lookup -/

/-- The number of handles issued so far, which is also the next handle. -/
def size (a : Arena α) : Nat := a.slots.size

/-- The value under a handle, unless it was erased or never stored. -/
def get? (a : Arena α) (i : Nat) : Option α := a.slots[i]?.join

/-- Whether a value is stored under the handle. -/
def isLive (a : Arena α) (i : Nat) : Bool := (a.get? i).isSome

@[simp] theorem size_empty : (∅ : Arena α).size = 0 := rfl

@[simp] theorem get?_empty (i : Nat) : (∅ : Arena α).get? i = none := rfl

theorem get?_eq_none_of_le {a : Arena α} {i : Nat} (h : a.size ≤ i) : a.get? i = none := by
  simp [get?, Array.getElem?_eq_none h]

theorem lt_size_of_get? {a : Arena α} {i : Nat} {x : α} (h : a.get? i = some x) : i < a.size := by
  rcases Nat.lt_or_ge i a.size with hi | hi
  · exact hi
  · simp [get?_eq_none_of_le hi] at h

theorem isLive_iff {a : Arena α} {i : Nat} : a.isLive i = true ↔ ∃ x, a.get? i = some x :=
  Option.isSome_iff_exists

/-- Arenas that have issued the same handles and find the same values are equal. -/
theorem ext_get? {a b : Arena α} (hsize : a.size = b.size) (h : ∀ i, a.get? i = b.get? i) :
    a = b := by
  obtain ⟨slots⟩ := a
  obtain ⟨slots'⟩ := b
  congr 1
  refine Array.ext hsize fun i hi hi' => ?_
  simpa [get?, hi, hi'] using h i

/-! ## Entries -/

/-- The stored values with their handles, in ascending order of the handles. -/
def entries (a : Arena α) : List (Nat × α) :=
  (List.range a.size).filterMap fun i => (a.get? i).map (i, ·)

/-- The number of stored values. -/
def count (a : Arena α) : Nat := a.entries.length

@[simp] theorem mem_entries {a : Arena α} {i : Nat} {x : α} :
    (i, x) ∈ a.entries ↔ a.get? i = some x := by
  simp only [entries, List.mem_filterMap, List.mem_range, Option.map_eq_some_iff, Prod.mk.injEq]
  constructor
  · rintro ⟨j, _, y, h, rfl, rfl⟩
    exact h
  · exact fun h => ⟨i, lt_size_of_get? h, x, h, rfl, rfl⟩

theorem pairwise_entries (a : Arena α) : a.entries.Pairwise (fun x y => x.1 < y.1) := by
  refine List.pairwise_filterMap.2 (List.pairwise_lt_range.imp ?_)
  intro i j hij x hx y hy
  obtain ⟨_, _, rfl⟩ := Option.map_eq_some_iff.1 hx
  obtain ⟨_, _, rfl⟩ := Option.map_eq_some_iff.1 hy
  exact hij

/-! ## Operations -/

/-- Stores a value under the next handle, which is `a.size`. -/
def insert (a : Arena α) (x : α) : Arena α := ⟨a.slots.push (some x)⟩

/-- Changes the value under a handle, if there is one. -/
def modify (a : Arena α) (i : Nat) (f : α → α) : Arena α := ⟨a.slots.modify i (Option.map f)⟩

/-- Erases the value under a handle. -/
def erase (a : Arena α) (i : Nat) : Arena α := ⟨a.slots.setIfInBounds i none⟩

/-- Changes every stored value, or erases it where `f` yields nothing. -/
def filterMap (a : Arena α) (f : Nat → α → Option α) : Arena α :=
  ⟨a.slots.mapIdx fun i slot => slot.bind (f i)⟩

@[simp] theorem size_insert (a : Arena α) (x : α) : (a.insert x).size = a.size + 1 := by
  simp [insert, size]

@[simp] theorem size_modify (a : Arena α) (i : Nat) (f : α → α) :
    (a.modify i f).size = a.size := by
  simp [modify, size]

@[simp] theorem size_erase (a : Arena α) (i : Nat) : (a.erase i).size = a.size := by
  simp [erase, size]

@[simp] theorem size_filterMap (a : Arena α) (f : Nat → α → Option α) :
    (a.filterMap f).size = a.size := by
  simp [filterMap, size]

theorem get?_insert (a : Arena α) (x : α) (i : Nat) :
    (a.insert x).get? i = if i = a.size then some x else a.get? i := by
  by_cases h : i = a.slots.size <;> simp [insert, get?, size, Array.getElem?_push, h]

theorem get?_modify (a : Arena α) (i : Nat) (f : α → α) (j : Nat) :
    (a.modify i f).get? j = if i = j then (a.get? j).map f else a.get? j := by
  simp only [modify, get?, Array.getElem?_modify]
  split
  · rcases a.slots[j]? with _ | _ | _ <;> rfl
  · rfl

theorem get?_erase (a : Arena α) (i j : Nat) :
    (a.erase i).get? j = if i = j then none else a.get? j := by
  simp only [erase, get?, Array.getElem?_setIfInBounds]
  split
  · split <;> rfl
  · rfl

@[simp] theorem get?_filterMap (a : Arena α) (f : Nat → α → Option α) (i : Nat) :
    (a.filterMap f).get? i = (a.get? i).bind (f i) := by
  simp only [filterMap, get?, Array.getElem?_mapIdx]
  rcases a.slots[i]? with _ | _ | _ <;> rfl

@[simp] theorem filterMap_some (a : Arena α) : a.filterMap (fun _ x => some x) = a :=
  ext_get? (by simp) fun i => by simp

/-- Changing the values under several handles, if changing a value twice does what once does. -/
theorem get?_foldl_modify {f : α → α} (hf : ∀ x, f (f x) = f x) (a : Arena α) (is : List Nat)
    (j : Nat) : (is.foldl (fun a i => a.modify i f) a).get? j =
      if j ∈ is then (a.get? j).map f else a.get? j := by
  induction is generalizing a with
  | nil => simp
  | cons i is ih =>
    rw [List.foldl_cons, ih, get?_modify]
    by_cases hij : i = j
    · subst hij
      cases a.get? i <;> simp [hf]
    · simp [hij, Ne.symm hij]

@[simp] theorem size_foldl_modify (f : α → α) (a : Arena α) (is : List Nat) :
    (is.foldl (fun a i => a.modify i f) a).size = a.size := by
  induction is generalizing a with
  | nil => rfl
  | cons i is ih => rw [List.foldl_cons, ih, size_modify]

end Arena

end StateMerging
