import StateMerging.Automaton.Basic
import Mathlib.Data.Finset.Card

/-!
# Sizes of sets, arenas and automata

* `SortedSet.one_lt_size_iff` and `SortedSet.size_lt_two_cases`: a set has two members, or it is
  empty, or it has exactly the member that `SortedSet.min?` yields.
* `SortedSet.toFinset_injective`: different sets have different members.
* `Arena.count_eq_card`: an arena stores as many values as it has live handles, so that the sizes of
  two arenas are compared by maps between their live handles.
-/

namespace StateMerging

open Std

/-! ## Sets in ascending order -/

namespace SortedSet

variable {α : Type} [Ord α]

theorem min?_eq_none {s : SortedSet α} (h : s.min? = none) : s.toList = [] :=
  List.head?_eq_none_iff.1 h

theorem isEmpty_iff {s : SortedSet α} : s.isEmpty = true ↔ s = ∅ := by
  obtain ⟨xs, h⟩ := s
  constructor
  · intro hnil
    have : xs = [] := List.isEmpty_iff.1 hnil
    subst this
    rfl
  · intro heq
    rw [heq]
    rfl

variable [LawfulEqOrd α]

theorem one_lt_size_iff {s : SortedSet α} : 1 < s.size ↔ ∃ a ∈ s, ∃ b ∈ s, a ≠ b := by
  constructor
  · intro h
    have hpos : 0 < s.toList.length := Nat.lt_of_succ_lt h
    refine ⟨s.toList[0], List.getElem_mem hpos, s.toList[1], List.getElem_mem h, fun e => ?_⟩
    exact absurd ((List.Nodup.getElem_inj_iff s.nodup).1 e) (by omega)
  · rintro ⟨a, ha, b, hb, hab⟩
    by_contra hlt
    have hle : s.toList.length ≤ 1 := Nat.le_of_not_lt hlt
    obtain ⟨i, hi, rfl⟩ := List.getElem_of_mem ha
    obtain ⟨j, hj, rfl⟩ := List.getElem_of_mem hb
    obtain rfl : i = j := by omega
    exact hab rfl

theorem exists_ne_of_one_lt_size {s : SortedSet α} (h : 1 < s.size) (a : α) : ∃ b ∈ s, b ≠ a := by
  obtain ⟨b, hb, c, hc, hbc⟩ := one_lt_size_iff.1 h
  by_cases hba : b = a
  · exact ⟨c, hc, fun hca => hbc (hba.trans hca.symm)⟩
  · exact ⟨b, hb, hba⟩

theorem eq_of_size_lt_two {s : SortedSet α} (h : s.size < 2) {a b : α} (ha : a ∈ s) (hb : b ∈ s) :
    a = b := by
  by_contra hab
  have := one_lt_size_iff.2 ⟨a, ha, b, hb, hab⟩
  omega

omit [LawfulEqOrd α] in
theorem mem_of_min? {s : SortedSet α} {a : α} (h : s.min? = some a) : a ∈ s :=
  List.mem_of_mem_head? h

theorem size_lt_two_cases {s : SortedSet α} (h : s.size < 2) :
    (s.min? = none ∧ ∀ a, a ∉ s) ∨ ∃ a, s.min? = some a ∧ ∀ b, b ∈ s ↔ b = a := by
  cases hm : s.min? with
  | none =>
    refine Or.inl ⟨rfl, fun a ha => ?_⟩
    rw [← mem_toList, min?_eq_none hm] at ha
    cases ha
  | some a =>
    refine Or.inr ⟨a, rfl, fun b => ⟨fun hb => eq_of_size_lt_two h hb (mem_of_min? hm), ?_⟩⟩
    rintro rfl
    exact mem_of_min? hm

/-- The members of a set, without their order. -/
def toFinset [DecidableEq α] (s : SortedSet α) : Finset α := s.toList.toFinset

omit [LawfulEqOrd α] in
@[simp] theorem mem_toFinset [DecidableEq α] {s : SortedSet α} {a : α} : a ∈ s.toFinset ↔ a ∈ s :=
  List.mem_toFinset

theorem toFinset_injective [DecidableEq α] [TransOrd α] :
    Function.Injective (toFinset : SortedSet α → Finset α) := by
  intro s t h
  refine ext_mem fun a => ?_
  rw [← mem_toFinset, h, mem_toFinset]

end SortedSet

/-! ## Arenas -/

namespace Arena

variable {α : Type}

/-- The live handles of an arena. -/
def handles (a : Arena α) : Finset Nat := (a.entries.map (·.1)).toFinset

@[simp] theorem mem_handles {a : Arena α} {i : Nat} : i ∈ a.handles ↔ a.isLive i = true := by
  simp [handles, isLive_iff]

theorem count_eq_card (a : Arena α) : a.count = a.handles.card := by
  have hn : (a.entries.map (·.1)).Nodup :=
    List.pairwise_map.2 (a.pairwise_entries.imp fun h => Nat.ne_of_lt h)
  rw [handles, List.toFinset_card_of_nodup hn, List.length_map, count]

end Arena

end StateMerging
