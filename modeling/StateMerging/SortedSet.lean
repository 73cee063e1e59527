/-!
# Finite sets in ascending order

`SortedSet α` is a finite set that lists its members in strictly ascending order.  The order is part
of the type, so the list is determined by the members:

* `SortedSet.ext_mem`: two sets with the same members are equal.
* `SortedSet.of_find?_eq_some`: a search finds the least member with a property.
* `SortedSet.mem_insert`, `mem_erase`, `mem_ofList`, `mem_union`, `mem_filter`, `mem_image`: each
  operation, said by membership.

`groups` collects the values filed under each key, in ascending order of the keys; `mem_groups` says
that a key comes with exactly the values filed under it.
-/

namespace StateMerging

open Std

/-- A finite set, as the strictly ascending list of its members. -/
structure SortedSet (α : Type) [Ord α] where
  toList : List α
  ascending : toList.Pairwise (fun a b => compare a b = .lt)
  deriving DecidableEq

namespace SortedSet

variable {α : Type} [Ord α]

/-! ## Membership and extensionality -/

/-- The set without members. -/
def empty : SortedSet α := ⟨[], .nil⟩

instance : EmptyCollection (SortedSet α) := ⟨empty⟩

instance : Inhabited (SortedSet α) := ⟨∅⟩

instance : Membership α (SortedSet α) := ⟨fun s a => a ∈ s.toList⟩

theorem mem_toList {s : SortedSet α} {a : α} : a ∈ s.toList ↔ a ∈ s := Iff.rfl

instance [DecidableEq α] (a : α) (s : SortedSet α) : Decidable (a ∈ s) :=
  inferInstanceAs (Decidable (a ∈ s.toList))

@[simp] theorem not_mem_empty (a : α) : a ∉ (∅ : SortedSet α) := List.not_mem_nil

/-- The number of members. -/
def size (s : SortedSet α) : Nat := s.toList.length

/-- Whether there is no member. -/
def isEmpty (s : SortedSet α) : Bool := s.toList.isEmpty

/-- The lowest member. -/
def min? (s : SortedSet α) : Option α := s.toList.head?

section Lawful

variable [TransOrd α] [LawfulEqOrd α]

omit [TransOrd α] in
theorem nodup_of_ascending {l : List α} (hl : l.Pairwise fun a b => compare a b = .lt) : l.Nodup :=
  hl.imp fun h e => by simp [e] at h

omit [TransOrd α] in
theorem nodup (s : SortedSet α) : s.toList.Nodup := nodup_of_ascending s.ascending

/-- Ascending lists with the same members are equal. -/
theorem eq_of_mem_iff {l m : List α} (hl : l.Pairwise (fun a b => compare a b = .lt))
    (hm : m.Pairwise (fun a b => compare a b = .lt)) (h : ∀ a, a ∈ l ↔ a ∈ m) : l = m := by
  have hperm : l.Perm m :=
    (List.perm_ext_iff_of_nodup (nodup_of_ascending hl) (nodup_of_ascending hm)).2 h
  refine hperm.eq_of_pairwise (fun a b _ _ hab hba => ?_) hl hm
  rw [OrientedOrd.eq_swap, hab] at hba
  cases hba

/-- A set is determined by its members. -/
theorem ext_mem {s t : SortedSet α} (h : ∀ a, a ∈ s ↔ a ∈ t) : s = t := by
  cases s; cases t
  congr 1
  exact eq_of_mem_iff ‹_› ‹_› h

omit [TransOrd α] in
/-- The first member that satisfies a predicate is the least one. -/
theorem of_find?_eq_some {s : SortedSet α} {p : α → Bool} {a : α} (h : s.toList.find? p = some a) :
    a ∈ s ∧ p a = true ∧ ∀ b ∈ s, p b = true → (compare a b).isLE = true := by
  obtain ⟨hp, as, bs, hs, hnone⟩ := List.find?_eq_some_iff_append.1 h
  have ascending := s.ascending
  rw [hs, List.pairwise_append, List.pairwise_cons] at ascending
  refine ⟨List.mem_of_find?_eq_some h, hp, fun b hb hpb => ?_⟩
  rw [← mem_toList, hs, List.mem_append, List.mem_cons] at hb
  rcases hb with hb | rfl | hb
  · have := hnone b hb
    simp [hpb] at this
  · exact ReflCmp.isLE_rfl
  · rw [ascending.2.1.1 b hb]
    rfl

end Lawful

/-! ## Insertion -/

section Insertion

/-- An ascending list with `a` put in its place, once. -/
def insertAscending (a : α) : List α → List α
  | [] => [a]
  | b :: l =>
    match compare a b with
    | .lt => a :: b :: l
    | .eq => b :: l
    | .gt => b :: insertAscending a l

variable [TransOrd α] [LawfulEqOrd α]

omit [TransOrd α] in
theorem mem_insertAscending {a c : α} {l : List α} :
    c ∈ insertAscending a l ↔ c = a ∨ c ∈ l := by
  induction l with
  | nil => simp [insertAscending]
  | cons b l ih =>
    rw [insertAscending]
    split
    · simp
    · rename_i h
      have : a = b := LawfulEqOrd.eq_of_compare h
      subst this
      simp
    · simp only [List.mem_cons, ih]
      constructor
      · rintro (h | h | h) <;> simp [h]
      · rintro (h | h | h) <;> simp [h]

theorem pairwise_insertAscending {a : α} {l : List α}
    (hl : l.Pairwise (fun a b => compare a b = .lt)) :
    (insertAscending a l).Pairwise (fun a b => compare a b = .lt) := by
  induction l with
  | nil => simp [insertAscending]
  | cons b l ih =>
    rw [insertAscending]
    rw [List.pairwise_cons] at hl
    split
    · rename_i h
      refine List.pairwise_cons.2 ⟨fun c hc => ?_, List.pairwise_cons.2 hl⟩
      rcases List.mem_cons.1 hc with rfl | hc
      · exact h
      · exact TransCmp.lt_trans h (hl.1 c hc)
    · exact List.pairwise_cons.2 hl
    · rename_i h
      refine List.pairwise_cons.2 ⟨fun c hc => ?_, ih hl.2⟩
      rcases mem_insertAscending.1 hc with rfl | hc
      · exact OrientedCmp.lt_of_gt h
      · exact hl.1 c hc

/-- The set with one more member. -/
def insert (s : SortedSet α) (a : α) : SortedSet α :=
  ⟨insertAscending a s.toList, pairwise_insertAscending s.ascending⟩

@[simp] theorem mem_insert {s : SortedSet α} {a c : α} : c ∈ s.insert a ↔ c = a ∨ c ∈ s :=
  mem_insertAscending

/-- The members of a list. -/
def ofList : List α → SortedSet α
  | [] => ∅
  | a :: l => (ofList l).insert a

@[simp] theorem mem_ofList {l : List α} {a : α} : a ∈ ofList l ↔ a ∈ l := by
  induction l with
  | nil => simp [ofList]
  | cons b l ih => simp [ofList, ih]

@[simp] theorem ofList_toList (s : SortedSet α) : ofList s.toList = s :=
  ext_mem fun _ => mem_ofList

/-- The members of either set. -/
def union (s t : SortedSet α) : SortedSet α := ofList (s.toList ++ t.toList)

@[simp] theorem mem_union {s t : SortedSet α} {a : α} : a ∈ s.union t ↔ a ∈ s ∨ a ∈ t := by
  simp [union, mem_toList]

/-- The images of the members under `f`. -/
def image {β : Type} [Ord β] (s : SortedSet β) (f : β → α) : SortedSet α := ofList (s.toList.map f)

@[simp] theorem mem_image {β : Type} [Ord β] {s : SortedSet β} {f : β → α} {a : α} :
    a ∈ s.image f ↔ ∃ b ∈ s, f b = a := by
  simp [image, mem_toList]

end Insertion

/-! ## Selection -/

/-- The members that satisfy `p`. -/
def filter (s : SortedSet α) (p : α → Bool) : SortedSet α :=
  ⟨s.toList.filter p, s.ascending.filter p⟩

@[simp] theorem mem_filter {s : SortedSet α} {p : α → Bool} {a : α} :
    a ∈ s.filter p ↔ a ∈ s ∧ p a = true := List.mem_filter

/-- The members other than `a`. -/
def erase [DecidableEq α] (s : SortedSet α) (a : α) : SortedSet α := s.filter (· ≠ a)

@[simp] theorem mem_erase [DecidableEq α] {s : SortedSet α} {a c : α} :
    c ∈ s.erase a ↔ c ∈ s ∧ c ≠ a := by simp [erase]

end SortedSet

/-! ## Values filed under keys -/

section Groups

variable {κ α : Type} [Ord κ] [TransOrd κ] [LawfulEqOrd κ] [DecidableEq κ]
  [Ord α] [TransOrd α] [LawfulEqOrd α]

/-- The keys in ascending order, each with the set of the values filed under it. -/
def groups (filed : List (κ × α)) : List (κ × SortedSet α) :=
  (SortedSet.ofList (filed.map (·.1))).toList.map fun k =>
    (k, SortedSet.ofList ((filed.filter (·.1 = k)).map (·.2)))

theorem mem_groups {filed : List (κ × α)} {k : κ} {s : SortedSet α} :
    (k, s) ∈ groups filed ↔ (∃ a, (k, a) ∈ filed) ∧ ∀ a, a ∈ s ↔ (k, a) ∈ filed := by
  simp only [groups, List.mem_map, SortedSet.mem_toList, SortedSet.mem_ofList, Prod.mk.injEq,
    Prod.exists, exists_and_right, exists_eq_right]
  constructor
  · rintro ⟨_, h, rfl, rfl⟩
    exact ⟨h, fun a => by simp⟩
  · rintro ⟨h, hs⟩
    exact ⟨k, h, rfl, SortedSet.ext_mem fun a => by simp [hs]⟩

end Groups

end StateMerging
