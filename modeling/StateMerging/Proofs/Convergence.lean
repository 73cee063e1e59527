import StateMerging.Proofs.Fixpoint
import Mathlib.Data.Finset.Powerset

/-!
# Settling converges

Settling has no single counter that runs down.  A step that merges takes a node away, and forgets
the frontiers seen so far; a step that merges nothing keeps the nodes, and adds a frontier to those
seen.  The frontiers seen are distinct sets of live nodes that are not empty (`Seen`), so there are
fewer than `2 ^ n` of them for `n` nodes (`Seen.length_lt`).

Both are weighed together: settling from `n` nodes with `m` frontiers seen stops within
`n * 2 ^ n - m` steps (`Coherent.exists_stops`), because giving up one node pays for all
frontiers that may follow (`mul_two_pow_add_le`).
-/

namespace StateMerging.Automaton

variable {a b c : Automaton} {report : StepReport} {seen : List (SortedSet NodeId)}
  {taken remaining n : Nat}

/-! ## The frontiers seen since the last merge -/

/-- Distinct frontiers of live nodes, none of them empty. -/
structure Seen (a : Automaton) (seen : List (SortedSet NodeId)) : Prop where
  nodup : seen.Nodup
  ne_empty : ∀ frontier ∈ seen, frontier ≠ ∅
  isLive : ∀ frontier ∈ seen, ∀ q ∈ frontier, a.isLive q = true

theorem seen_nil (a : Automaton) : a.Seen [] :=
  ⟨List.nodup_nil, by simp, by simp⟩

theorem Seen.length_lt (h : a.Seen seen) : seen.length < 2 ^ a.size := by
  have hnodup : ((∅ :: seen).map SortedSet.toFinset).Nodup :=
    (List.nodup_cons.2 ⟨fun hmem => h.ne_empty ∅ hmem rfl, h.nodup⟩).map
      SortedSet.toFinset_injective
  have hsub : ((∅ :: seen).map SortedSet.toFinset).toFinset ⊆ a.nodes.handles.powerset := by
    intro s hs
    obtain ⟨frontier, hmem, rfl⟩ := List.mem_map.1 (List.mem_toFinset.1 hs)
    refine Finset.mem_powerset.2 fun q hq => Arena.mem_handles.2 ?_
    rw [SortedSet.mem_toFinset] at hq
    rcases List.mem_cons.1 hmem with rfl | hmem
    · exact absurd hq (SortedSet.not_mem_empty q)
    · exact h.isLive frontier hmem q hq
  have hcard := Finset.card_le_card hsub
  rw [List.toFinset_card_of_nodup hnodup, List.length_map, List.length_cons,
    Finset.card_powerset, ← size_eq_card] at hcard
  exact hcard

/-- A step that merges nothing adds its frontier to the ones seen. -/
theorem Advance.seen_cons (k : Advance a report b) (hzero : report.merges = 0) (h : a.Seen seen)
    (hempty : b.frontier ≠ ∅) (hmem : b.frontier ∉ seen) : b.Seen (b.frontier :: seen) := by
  have hlive (q) : b.isLive q = a.isLive q := by
    rw [k.unchanged hzero]
    rfl
  refine ⟨List.nodup_cons.2 ⟨hmem, h.nodup⟩, List.forall_mem_cons.2 ⟨hempty, h.ne_empty⟩,
    List.forall_mem_cons.2 ⟨k.contract.frontier_live, fun frontier hf q hq => ?_⟩⟩
  rw [hlive]
  exact h.isLive frontier hf q hq

theorem Advance.size_eq (k : Advance a report b) (hzero : report.merges = 0) : b.size = a.size := by
  rw [k.unchanged hzero]
  rfl

/-! ## Stopping -/

/-- Settling makes so many steps and leaves the second automaton, whenever so many are allowed. -/
def Stops (a : Automaton) (seen : List (SortedSet NodeId)) (n : Nat) (b : Automaton) : Prop :=
  ∀ taken remaining, n ≤ remaining → a.settleFrom taken seen remaining = ⟨.ok (taken + n), b⟩

theorem settleFrom_succ (hrun : a.step = ⟨.ok report, b⟩) :
    a.settleFrom taken seen (remaining + 1) =
      if report.changed then b.settleFrom (taken + 1) [] remaining
      else if b.frontier.isEmpty || b.frontier ∈ seen then ⟨.ok (taken + 1), b⟩
      else b.settleFrom (taken + 1) (b.frontier :: seen) remaining := by
  rw [settleFrom, hrun]

theorem Stops.succ {seen' : List (SortedSet NodeId)} (h : b.Stops seen' n c)
    (hstep : ∀ taken remaining, a.settleFrom taken seen (remaining + 1) =
      b.settleFrom (taken + 1) seen' remaining) : a.Stops seen (n + 1) c := by
  intro taken remaining hle
  obtain ⟨i, rfl⟩ : ∃ i, remaining = i + 1 := ⟨remaining - 1, by omega⟩
  rw [hstep, h (taken + 1) i (by omega), show taken + 1 + n = taken + (n + 1) by omega]

theorem stops_one (hstep : ∀ taken remaining, a.settleFrom taken seen (remaining + 1) =
    ⟨.ok (taken + 1), b⟩) : a.Stops seen 1 b := by
  intro taken remaining hle
  obtain ⟨i, rfl⟩ : ∃ i, remaining = i + 1 := ⟨remaining - 1, by omega⟩
  exact hstep taken i

/-! ## The number of steps -/

/-- One node less makes up for all sets of nodes. -/
theorem mul_two_pow_add_le {m n : Nat} (h : m < n) : m * 2 ^ m + 2 ^ n ≤ n * 2 ^ n :=
  calc m * 2 ^ m + 2 ^ n
      ≤ m * 2 ^ n + 2 ^ n :=
        Nat.add_le_add_right (Nat.mul_le_mul_left m (Nat.pow_le_pow_right Nat.two_pos h.le)) _
    _ = (m + 1) * 2 ^ n := (Nat.succ_mul m (2 ^ n)).symm
    _ ≤ n * 2 ^ n := Nat.mul_le_mul_right _ h

theorem WellFormed.two_pow_size_le (ha : a.WellFormed) : 2 ^ a.size ≤ a.size * 2 ^ a.size := by
  have hpos : 0 < a.size := by
    rw [size_eq_card, Finset.card_pos]
    exact ⟨a.start, Arena.mem_handles.2 ha.start_live⟩
  exact Nat.le_mul_of_pos_left _ hpos

/-- The number of steps left and the frontiers seen are bounded by the nodes. -/
theorem Coherent.exists_stops (ha : a.Coherent) (hseen : a.Seen seen) :
    ∃ n b, n + seen.length ≤ a.size * 2 ^ a.size ∧ a.Stops seen n b := by
  induction hweight : a.size * 2 ^ a.size - seen.length using Nat.strongRecOn
    generalizing a seen with
  | ind weight ih =>
    subst hweight
    obtain ⟨report, hrun, k⟩ := ha.step_eq
    have hlength := hseen.length_lt
    have hnodes := ha.two_pow_size_le
    by_cases hchanged : report.changed = true
    · -- A node is gone, and the frontiers are forgotten.
      have hmerges : 0 < report.merges := by simpa [StepReport.changed] using hchanged
      have hsize : a.advance.size < a.size := by
        have := k.size_add_merges
        omega
      have hless := mul_two_pow_add_le hsize
      obtain ⟨n, b, hn, hb⟩ := ih _ (by rw [List.length_nil]; omega) ha.advance (seen_nil _) rfl
      rw [List.length_nil] at hn
      exact ⟨n + 1, b, by omega, hb.succ fun taken remaining => by
        rw [settleFrom_succ hrun, if_pos hchanged]⟩
    · have hzero : report.merges = 0 := by simpa [StepReport.changed] using hchanged
      by_cases hstop : (a.advance.frontier.isEmpty || a.advance.frontier ∈ seen) = true
      · exact ⟨1, a.advance, by omega, stops_one fun taken remaining => by
          rw [settleFrom_succ hrun, if_neg hchanged, if_pos hstop]⟩
      · -- There is one more frontier, and the nodes are the same.
        obtain ⟨hempty, hmem⟩ : a.advance.frontier ≠ ∅ ∧ a.advance.frontier ∉ seen := by
          simpa [SortedSet.isEmpty_iff] using hstop
        have hsize := k.size_eq hzero
        obtain ⟨n, b, hn, hb⟩ := ih _ (by rw [hsize, List.length_cons]; omega) ha.advance
          (k.seen_cons hzero hseen hempty hmem) rfl
        rw [hsize, List.length_cons] at hn
        exact ⟨n + 1, b, by omega, hb.succ fun taken remaining => by
          rw [settleFrom_succ hrun, if_neg hchanged, if_neg hstop]⟩

/-- From an automaton of `n` nodes settling stops after at most `n * 2 ^ n` steps; the number of
steps and the automaton that is left are the same for all bounds above. -/
theorem settle_converges (ha : a.Reachable) : ∃ k ≤ a.size * 2 ^ a.size, ∃ b,
    ∀ bound, a.size * 2 ^ a.size < bound → a.settle bound = ⟨.ok k, b⟩ := by
  obtain ⟨k, b, hk, hb⟩ := ha.coherent.exists_stops (seen_nil a)
  have hk : k ≤ a.size * 2 ^ a.size := by simpa using hk
  refine ⟨k, hk, b, fun bound hbound => ?_⟩
  rw [settle, hb 0 bound (by omega), Nat.zero_add]

theorem alternating_converges : alternating.size = 4 ∧
    ∃ b, ∀ bound, 64 < bound → alternating.settle bound = ⟨.ok 4, b⟩ := by
  have hsize : alternating.size = 4 := by decide +kernel
  obtain ⟨k, -, b, hb⟩ := settle_converges (a := alternating) ⟨_, rfl⟩
  rw [hsize] at hb
  have hrun : (alternating.settle 65).result = .ok 4 := by decide +kernel
  rw [hb 65 (by omega)] at hrun
  cases hrun
  exact ⟨hsize, b, hb⟩

end StateMerging.Automaton
