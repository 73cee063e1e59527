import StateMerging.Proofs.Determinism
import StateMerging.Snapshot

/-!
# Settling stops at a fixpoint

A step is `Quiet` when it merges nothing; it changes only the frontier and the phase.  Settling
stops early when quiet steps have come back to a frontier that they have left, and so they lead
round a cycle: `Coherent.settleFrom_cycle`, whose invariant says of every frontier seen so far that
quiet steps lead from it to the automaton at hand.  An empty frontier is such a cycle of one step.

Because a step has one outcome only, all steps after a cycle of quiet steps are quiet
(`quiet_iterate`): the automaton is deterministic and will never change again.
-/

namespace StateMerging.Automaton

open Relation

variable {a b : Automaton} {bound k : Nat}

/-- A step that merges nothing leads from the one automaton to the other. -/
def Quiet (a b : Automaton) : Prop :=
  ∃ report, a.step = ⟨.ok report, b⟩ ∧ report.merges = 0

/-! ## Quiet steps -/

theorem Quiet.advance_eq (h : Quiet a b) : a.advance = b := by
  obtain ⟨report, hrun, -⟩ := h
  rw [advance, hrun]

theorem Coherent.advance_of_quiet (ha : a.Coherent) (h : Quiet a b) :
    ∃ report, report.merges = 0 ∧ Advance a report b := by
  obtain ⟨report, hrun, hzero⟩ := h
  obtain ⟨report', hrun', k⟩ := ha.step_eq
  rw [hrun] at hrun'
  cases hrun'
  exact ⟨report, hzero, k⟩

/-- A quiet step changes only the frontier and the phase. -/
theorem Coherent.eq_of_quiet (ha : a.Coherent) (h : Quiet a b) :
    b = { a with phase := .finalsUnified, frontier := b.frontier } := by
  obtain ⟨report, hzero, k⟩ := ha.advance_of_quiet h
  exact k.unchanged hzero

theorem Coherent.snapshot_of_quiet (ha : a.Coherent) (h : Quiet a b) : b.snapshot = a.snapshot := by
  rw [ha.eq_of_quiet h]
  rfl

theorem Coherent.isDeterministic_of_quiet (ha : a.Coherent) (h : Quiet a b) :
    a.isDeterministic = true := by
  obtain ⟨report, hzero, k⟩ := ha.advance_of_quiet h
  exact k.isDeterministic ha hzero

/-- With an empty frontier there is nothing to merge, and the frontier stays empty. -/
theorem Coherent.quiet_of_frontier_eq_empty (ha : a.Coherent) (hphase : a.phase = .finalsUnified)
    (hfrontier : a.frontier = ∅) : Quiet a a := by
  have hcand : a.candidates = (false, []) := by
    rw [candidates, shared, hfrontier]
    rfl
  have hnext : ({ a with frontier := ∅ } : Automaton).nextFrontier {} ∅ = a.frontier := by
    rw [hfrontier]
    rfl
  have hmerge : a.mergeFrontier = ⟨.ok ⟨a.phase, 0, false⟩, a⟩ := by
    rw [mergeFrontier, find?_not_isLive ha.frontier_live, hcand]
    change (⟨.ok ⟨a.phase, 0, false⟩, { a with
      frontier := ({ a with frontier := ∅ } : Automaton).nextFrontier {} a.frontier }⟩ :
        Outcome StepReport) = _
    rw [hfrontier, hnext]
  exact ⟨⟨a.phase, 0, false⟩, step_of_mergeFrontier hphase hmerge ha.toContract, rfl⟩

/-! ## Cycles of quiet steps -/

/-- The step after a cycle leads from one automaton of the cycle to the next. -/
theorem exists_quiet_of_cycle (h : TransGen Quiet b b) :
    Quiet b b.advance ∧ TransGen Quiet b.advance b.advance := by
  obtain ⟨c, hstep, hrest⟩ := TransGen.head'_iff.1 h
  have hc := hstep.advance_eq
  subst hc
  exact ⟨hstep, TransGen.tail' hrest hstep⟩

theorem quiet_iterate (h : TransGen Quiet b b) (n : Nat) :
    Quiet (Automaton.advance^[n] b) (Automaton.advance^[n] b).advance := by
  induction n generalizing b with
  | zero => exact (exists_quiet_of_cycle h).1
  | succ n ih => exact ih (exists_quiet_of_cycle h).2

theorem Coherent.snapshot_iterate (hb : b.Coherent) (h : TransGen Quiet b b) (n : Nat) :
    (Automaton.advance^[n] b).snapshot = b.snapshot := by
  induction n with
  | zero => rfl
  | succ n ih =>
    rw [Function.iterate_succ_apply', (hb.iterate n).snapshot_of_quiet (quiet_iterate h n), ih]

/-! ## Settling -/

/-- The structure is the same after a quiet step, so that the frontiers seen before it still lead
there; the frontier that the step makes leads there without a step. -/
theorem Coherent.leads_advance (ha : a.Coherent) (hquiet : Quiet a a.advance)
    {seen : List (SortedSet NodeId)}
    (hseen : ∀ frontier ∈ seen, ReflTransGen Quiet
      { a with phase := .finalsUnified, frontier := frontier } a) :
    ∀ frontier ∈ a.advance.frontier :: seen, ReflTransGen Quiet
      { a.advance with phase := .finalsUnified, frontier := frontier } a.advance := by
  intro frontier hmem
  have hresume : ({ a.advance with
      phase := .finalsUnified, frontier := frontier } : Automaton) =
      { a with phase := .finalsUnified, frontier := frontier } := by
    rw [ha.eq_of_quiet hquiet]
  rw [hresume]
  rcases List.mem_cons.1 hmem with rfl | hmem
  · rw [← ha.eq_of_quiet hquiet]
  · exact (hseen frontier hmem).tail hquiet

/-- When settling stops before the bound, it has gone round a cycle. -/
theorem Coherent.settleFrom_cycle (ha : a.Coherent) {taken remaining : Nat}
    {seen : List (SortedSet NodeId)}
    (hseen : ∀ frontier ∈ seen, ReflTransGen Quiet
      { a with phase := .finalsUnified, frontier := frontier } a)
    (hrun : a.settleFrom taken seen remaining = ⟨.ok k, b⟩) (hk : k < taken + remaining) :
    TransGen Quiet b b := by
  induction remaining generalizing a taken seen with
  | zero =>
    cases hrun
    omega
  | succ remaining ih =>
    obtain ⟨report, hstep, hadv⟩ := ha.step_eq
    rw [settleFrom, hstep] at hrun
    simp only [StepReport.changed, decide_eq_true_eq] at hrun
    split at hrun
    · exact ih ha.advance (by simp) hrun (by omega)
    · rename_i hmerges
      have hquiet : Quiet a a.advance := ⟨report, hstep, by omega⟩
      split at hrun
      · rename_i hstop
        cases hrun
        simp only [Bool.or_eq_true, decide_eq_true_eq] at hstop
        rcases hstop with hempty | hmem
        · have hempty' := SortedSet.isEmpty_iff.1 hempty
          exact .single (ha.advance.quiet_of_frontier_eq_empty hadv.phase_eq hempty')
        · have hback := hseen _ hmem
          rw [← ha.eq_of_quiet hquiet] at hback
          exact TransGen.tail' hback hquiet
      · exact ih ha.advance (ha.leads_advance hquiet hseen) hrun (by omega)

/-- Settling that answers with a number has made that many steps. -/
theorem Coherent.settle_of_result (ha : a.Coherent) (hrun : (a.settle bound).result = .ok k) :
    a.settle bound = ⟨.ok k, Automaton.advance^[k] a⟩ := by
  obtain ⟨n, -, heq⟩ := ha.settle_eq bound
  rw [heq] at hrun
  cases hrun
  exact heq

theorem Coherent.settle_cycle (ha : a.Coherent) (hrun : (a.settle bound).result = .ok k)
    (hk : k < bound) : TransGen Quiet (Automaton.advance^[k] a) (Automaton.advance^[k] a) :=
  ha.settleFrom_cycle (by simp) (ha.settle_of_result hrun) (by omega)

/-- When settling stops before the bound, no node is nondeterministic any more. -/
theorem Coherent.isDeterministic_of_settle (ha : a.Coherent)
    (hrun : (a.settle bound).result = .ok k) (hk : k < bound) :
    (a.settle bound).after.isDeterministic = true := by
  have hcycle := ha.settle_cycle hrun hk
  rw [ha.settle_of_result hrun]
  exact (ha.iterate k).isDeterministic_of_quiet (exists_quiet_of_cycle hcycle).1

/-- When settling makes fewer steps than allowed, the automaton it leaves is deterministic, and no
further step merges anything or changes the snapshot; so this is the snapshot after any number of
steps that is at least the number answered. -/
theorem settle_stops_at_fixpoint (ha : a.Reachable) (hrun : (a.settle bound).result = .ok k)
    (hk : k < bound) :
    (a.settle bound).after.isDeterministic = true ∧
    (∀ n, ∃ report, (advance^[n] (a.settle bound).after).step.result = .ok report ∧
      report.merges = 0 ∧
      (advance^[n] (a.settle bound).after).step.after.snapshot =
        (a.settle bound).after.snapshot) ∧
    ∀ n, k ≤ n → (advance^[n] a).snapshot = (a.settle bound).after.snapshot := by
  have hcoh := ha.coherent
  have hb := hcoh.iterate k
  have hcycle := hcoh.settle_cycle hrun hk
  refine ⟨hcoh.isDeterministic_of_settle hrun hk, ?_⟩
  rw [hcoh.settle_of_result hrun]
  refine ⟨fun n => ?_, fun n hn => ?_⟩
  · obtain ⟨report, hstep, hzero⟩ := quiet_iterate hcycle n
    have hsnap := hb.snapshot_iterate hcycle (n + 1)
    rw [Function.iterate_succ_apply'] at hsnap
    exact ⟨report, by rw [hstep], hzero, hsnap⟩
  · obtain ⟨i, rfl⟩ := Nat.exists_eq_add_of_le' hn
    rw [Function.iterate_add_apply]
    exact hb.snapshot_iterate hcycle i

/-- The sentences `a` and `a a b`: after their final nodes have been unified the frontier alternates
between two sets that are not empty. -/
def alternating : Automaton := empty.performAll [.ingest "a", .ingest "a a b"]

theorem alternating_settles :
    (alternating.settle 9).result = .ok 4 ∧
      (advance^[2] alternating).frontier ≠ (advance^[3] alternating).frontier ∧
      (advance^[4] alternating).frontier ≠ ∅ ∧
      ∀ n, 4 ≤ n → (advance^[n] alternating).snapshot = (alternating.settle 9).after.snapshot := by
  have hrun : (alternating.settle 9).result = .ok 4 := by decide +kernel
  have h := settle_stops_at_fixpoint ⟨_, rfl⟩ hrun (by omega)
  exact ⟨hrun, by decide +kernel, by decide +kernel, h.2.2⟩

end StateMerging.Automaton
