import StateMerging.Redirections
import Mathlib.Data.List.Perm.Subperm

/-!
# Chains of replacements

`Redirections.Ends r n x y` says that the chain of replacements that starts in `x` has `n` links and
ends in `y`.  A record is `Acyclic` when every chain ends.

* `Ends.root_eq`: the bounded search of `Redirections.root` finds the end, because the elements on a
  chain that ends are distinct and so are no more than the records.
* `Acyclic.redirect` and `root_redirect`: replacing an element that was not replaced before, by one
  that does not stand for it, keeps every chain ending, and moves the ends at `x` only.
* `Acyclic.redirectAll` and `root_redirectAll`: the same for a group of elements and one
  replacement.
-/

namespace StateMerging.Redirections

variable {α : Type} [DecidableEq α] {r : Redirections α} {m n : Nat} {x y z w : α} {xs : List α}

/-- The chain of replacements that starts in an element has so many links and ends there. -/
inductive Ends (r : Redirections α) : Nat → α → α → Prop
  /-- An element without a replacement is its own end. -/
  | stop {x : α} (h : r.next? x = none) : Ends r 0 x x
  /-- A chain goes on from the replacement. -/
  | link {n : Nat} {x y z : α} (h : r.next? x = some y) (rest : Ends r n y z) : Ends r (n + 1) x z

/-! ## Ends are found -/

theorem Ends.unique (h : r.Ends n x y) (k : r.Ends m x z) : n = m ∧ y = z := by
  induction h generalizing m with
  | stop h =>
    cases k with
    | stop => exact ⟨rfl, rfl⟩
    | link k _ => simp [h] at k
  | link h _ ih =>
    cases k with
    | stop k => simp [h] at k
    | link k rest =>
      obtain rfl : _ = _ := Option.some.inj (h.symm.trans k)
      obtain ⟨rfl, e⟩ := ih rest
      exact ⟨rfl, e⟩

theorem Ends.next?_eq_none (h : r.Ends n x y) : r.next? y = none := by
  induction h with
  | stop h => exact h
  | link _ _ ih => exact ih

/-- The elements with a replacement on a chain that ends are distinct: they are at different
distances from the end. -/
theorem Ends.exists_passed (h : r.Ends n x y) :
    ∃ l : List α, l.length = n ∧ l.Nodup ∧ ∀ z ∈ l, (∃ w, r.next? z = some w) ∧
      ∃ k ≤ n, r.Ends k z y := by
  induction h with
  | stop => exact ⟨[], rfl, List.nodup_nil, by simp⟩
  | @link n x y z h rest ih =>
    obtain ⟨l, hl, hn, hm⟩ := ih
    refine ⟨x :: l, by simp [hl], List.nodup_cons.2 ⟨fun hx => ?_, hn⟩, fun c hc => ?_⟩
    · obtain ⟨-, k, hk, hend⟩ := hm x hx
      have := (hend.unique (.link h rest)).1
      omega
    · rcases List.mem_cons.1 hc with rfl | hc
      · exact ⟨⟨y, h⟩, n + 1, Nat.le_refl _, .link h rest⟩
      · obtain ⟨hw, k, hk, hend⟩ := hm c hc
        exact ⟨hw, k, by omega, hend⟩

theorem mem_keys_of_next? (h : r.next? x = some y) : x ∈ r.pairs.map (·.1) := by
  obtain ⟨l₁, l₂, hl, -⟩ := List.lookup_eq_some_iff.1 h
  simp [hl]

theorem Ends.le_length (h : r.Ends n x y) : n ≤ r.pairs.length := by
  obtain ⟨l, rfl, hn, hm⟩ := h.exists_passed
  have hsub : l ⊆ r.pairs.map (·.1) := fun z hz => by
    obtain ⟨⟨w, hw⟩, -⟩ := hm z hz
    exact mem_keys_of_next? hw
  simpa using (List.subperm_of_subset hn hsub).length_le

theorem Ends.follow_eq (h : r.Ends n x y) (hm : n ≤ m) : r.follow m x = y := by
  induction h generalizing m with
  | stop h => exact follow_of_next?_eq_none h m
  | @link n x y z h _ ih =>
    obtain ⟨k, rfl⟩ : ∃ k, m = k + 1 := ⟨m - 1, by omega⟩
    rw [follow, h]
    exact ih (by omega)

theorem Ends.root_eq (h : r.Ends n x y) : r.root x = y := h.follow_eq h.le_length

/-! ## Records in which every chain ends -/

/-- Every chain of replacements ends. -/
def Acyclic (r : Redirections α) : Prop := ∀ x, ∃ n y, r.Ends n x y

theorem acyclic_empty : (∅ : Redirections α).Acyclic := fun x => ⟨0, x, .stop (next?_empty x)⟩

theorem Acyclic.ends_root (h : r.Acyclic) (x : α) : ∃ n, r.Ends n x (r.root x) := by
  obtain ⟨n, y, hy⟩ := h x
  exact ⟨n, hy.root_eq.symm ▸ hy⟩

theorem Acyclic.next?_root (h : r.Acyclic) (x : α) : r.next? (r.root x) = none := by
  obtain ⟨n, hn⟩ := h.ends_root x
  exact hn.next?_eq_none

/-! ## One more replacement -/

/-- A chain that does not end in `x` does not pass `x` either. -/
theorem Ends.redirect_of_ne (h : r.Ends n z w) (hx : r.next? x = none) (hxy : x ≠ y)
    (hw : w ≠ x) : (r.redirect x y).Ends n z w := by
  induction h with
  | stop h => exact .stop (by rw [next?_redirect r hxy, if_neg hw, h])
  | @link _ a _ _ h _ ih =>
    have ha : a ≠ x := by
      rintro rfl
      simp [hx] at h
    exact .link (by rw [next?_redirect r hxy, if_neg ha, h]) (ih hw)

theorem Ends.redirect_of_eq (h : r.Ends n z x) (hx : r.next? x = none) (hxy : x ≠ y)
    (hy : (r.redirect x y).Ends m y w) : ∃ k, (r.redirect x y).Ends k z w := by
  induction h with
  | stop => exact ⟨m + 1, .link (by rw [next?_redirect r hxy, if_pos rfl]) hy⟩
  | @link _ a _ b h _ ih =>
    have ha : a ≠ b := by
      rintro rfl
      simp [hx] at h
    obtain ⟨k, hk⟩ := ih hx hxy hy
    exact ⟨k + 1, .link (by rw [next?_redirect r hxy, if_neg ha, h]) hk⟩

theorem Acyclic.ends_redirect (h : r.Acyclic) (hx : r.next? x = none) (hy : r.root y ≠ x) (z : α) :
    ∃ n, (r.redirect x y).Ends n z (if r.root z = x then r.root y else r.root z) := by
  have hxy : x ≠ y := fun e => hy (by rw [← e, root_of_next?_eq_none hx])
  obtain ⟨n, hz⟩ := h.ends_root z
  split
  · rename_i e
    obtain ⟨m, hm⟩ := h.ends_root y
    exact (e ▸ hz).redirect_of_eq hx hxy (hm.redirect_of_ne hx hxy hy)
  · rename_i e
    exact ⟨n, hz.redirect_of_ne hx hxy e⟩

theorem Acyclic.redirect (h : r.Acyclic) (hx : r.next? x = none) (hy : r.root y ≠ x) :
    (r.redirect x y).Acyclic := fun z =>
  let ⟨n, hn⟩ := h.ends_redirect hx hy z
  ⟨n, _, hn⟩

theorem Acyclic.root_redirect (h : r.Acyclic) (hx : r.next? x = none) (hy : r.root y ≠ x) (z : α) :
    (r.redirect x y).root z = if r.root z = x then r.root y else r.root z := by
  obtain ⟨n, hn⟩ := h.ends_redirect hx hy z
  exact hn.root_eq

/-! ## Replacing a group -/

theorem next?_redirectAll (hy : y ∉ xs) (z : α) :
    (r.redirectAll xs y).next? z = if z ∈ xs then some y else r.next? z := by
  induction xs generalizing r with
  | nil => simp [Redirections.redirectAll]
  | cons x xs ih =>
    obtain ⟨hx, hy⟩ := not_or.1 (List.mem_cons.not.1 hy)
    rw [show r.redirectAll (x :: xs) y = (r.redirect x y).redirectAll xs y from rfl, ih hy,
      next?_redirect r (Ne.symm hx)]
    by_cases hz : z = x <;> by_cases hm : z ∈ xs <;> simp [hz, hm]

/-- The members of the group that are still to be replaced have no replacement, and neither has `y`;
so each replacement in turn closes no cycle. -/
theorem Acyclic.redirectAll_aux (h : r.Acyclic) (hn : xs.Nodup)
    (hx : ∀ x ∈ xs, r.next? x = none) (hy : r.next? y = none) (hm : y ∉ xs) :
    (r.redirectAll xs y).Acyclic ∧
      ∀ z, (r.redirectAll xs y).root z = if r.root z ∈ xs then y else r.root z := by
  induction xs generalizing r with
  | nil => exact ⟨h, fun z => by simp [Redirections.redirectAll]⟩
  | cons x xs ih =>
    obtain ⟨hxs, hn⟩ := List.nodup_cons.1 hn
    obtain ⟨hyx, hm⟩ := not_or.1 (List.mem_cons.not.1 hm)
    have hroot : r.root y = y := root_of_next?_eq_none hy
    have hx₀ : r.next? x = none := hx x (by simp)
    have hxy : r.root y ≠ x := by rwa [hroot]
    have hx' : ∀ c ∈ xs, (r.redirect x y).next? c = none := fun c hc => by
      have hcx : c ≠ x := fun e => hxs (e ▸ hc)
      rw [next?_redirect r (Ne.symm hyx), if_neg hcx, hx c (by simp [hc])]
    have hy' : (r.redirect x y).next? y = none := by
      rw [next?_redirect r (Ne.symm hyx), if_neg hyx, hy]
    obtain ⟨hac, hz⟩ := ih (h.redirect hx₀ hxy) hn hx' hy' hm
    refine ⟨hac, fun z => ?_⟩
    rw [show r.redirectAll (x :: xs) y = (r.redirect x y).redirectAll xs y from rfl, hz z,
      h.root_redirect hx₀ hxy, hroot]
    by_cases hzx : r.root z = x
    · simp [hzx, hm]
    · simp [hzx]

theorem Acyclic.redirectAll (h : r.Acyclic) (hn : xs.Nodup) (hx : ∀ x ∈ xs, r.next? x = none)
    (hy : r.next? y = none) (hm : y ∉ xs) : (r.redirectAll xs y).Acyclic :=
  (h.redirectAll_aux hn hx hy hm).1

theorem Acyclic.root_redirectAll (h : r.Acyclic) (hn : xs.Nodup)
    (hx : ∀ x ∈ xs, r.next? x = none) (hy : r.next? y = none) (hm : y ∉ xs) (z : α) :
    (r.redirectAll xs y).root z = if r.root z ∈ xs then y else r.root z :=
  (h.redirectAll_aux hn hx hy hm).2 z

end StateMerging.Redirections
