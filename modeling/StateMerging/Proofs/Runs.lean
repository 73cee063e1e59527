import Mathlib.Logic.Function.Iterate
import StateMerging.Automaton.Run
import StateMerging.Proofs.Extension

/-!
# Runs keep the contract

`Coherent` is the invariant of all runs: the contract holds and every nondeterministic node is
pending.  The empty automaton has it, and sentences, steps and settling keep it, so every run does
(`coherent_performAll`).

Settling is nothing but iterated steps: it answers with a number of steps, and leaves the automaton
that so many steps lead to (`Coherent.settle_eq`).

`run_meets_contract` is the conclusion for the user: on no run is there a violation to report.
-/

namespace StateMerging.Automaton

variable {a b : Automaton} {report : StepReport}

/-- The automaton after one step. -/
def advance (a : Automaton) : Automaton := a.step.after

/-- What holds of every automaton on a run. -/
structure Coherent (a : Automaton) : Prop extends Contract a where
  pending : a.Pending

/-! ## Steps -/

theorem Advance.coherent (k : Advance a report b) (ha : a.Coherent) : b.Coherent where
  toContract := k.contract
  pending := k.pending ha.pending

theorem Coherent.step_eq (ha : a.Coherent) :
    ∃ report, a.step = ⟨.ok report, a.advance⟩ ∧ Advance a report a.advance := by
  obtain ⟨report, b, hrun, hb⟩ := step_spec ha.toContract
  have hafter : a.advance = b := by rw [advance, hrun]
  rw [hafter]
  exact ⟨report, hrun, hb⟩

theorem Coherent.advance (ha : a.Coherent) : a.advance.Coherent := by
  obtain ⟨report, -, hb⟩ := ha.step_eq
  exact hb.coherent ha

theorem Coherent.iterate (ha : a.Coherent) (n : Nat) : (Automaton.advance^[n] a).Coherent := by
  induction n generalizing a with
  | zero => exact ha
  | succ n ih => exact ih ha.advance

/-! ## Settling -/

theorem Coherent.settleFrom_eq (ha : a.Coherent) (taken : Nat) (seen : List (SortedSet NodeId))
    (remaining : Nat) : ∃ n ≤ remaining,
      a.settleFrom taken seen remaining = ⟨.ok (taken + n), Automaton.advance^[n] a⟩ := by
  induction remaining generalizing a taken seen with
  | zero => exact ⟨0, Nat.le_refl 0, rfl⟩
  | succ remaining ih =>
    obtain ⟨report, hrun, hb⟩ := ha.step_eq
    -- The steps after the first one, whatever is passed on to them.
    have hrest (seen) : ∃ n ≤ remaining + 1,
        a.advance.settleFrom (taken + 1) seen remaining =
          ⟨.ok (taken + n), Automaton.advance^[n] a⟩ := by
      obtain ⟨n, hn, heq⟩ := ih ha.advance (taken + 1) seen
      refine ⟨n + 1, by omega, ?_⟩
      rw [heq, Function.iterate_succ_apply, show taken + 1 + n = taken + (n + 1) by omega]
    rw [settleFrom, hrun]
    simp only
    split
    · exact hrest []
    · split
      · exact ⟨1, by omega, rfl⟩
      · exact hrest _

/-- Settling answers with the number of the steps that were made. -/
theorem Coherent.settle_eq (ha : a.Coherent) (bound : Nat) :
    ∃ n ≤ bound, a.settle bound = ⟨.ok n, Automaton.advance^[n] a⟩ := by
  obtain ⟨n, hn, heq⟩ := ha.settleFrom_eq 0 [] bound
  rw [Nat.zero_add] at heq
  exact ⟨n, hn, heq⟩

/-! ## Runs -/

theorem coherent_empty : empty.Coherent where
  toContract := violation?_eq_none_iff.1 (by decide)
  pending q hq := by
    have hdet : empty.isDeterministic = true := by decide
    rw [isDeterministic_iff.1 hdet q] at hq
    cases hq

theorem Coherent.ingest (ha : a.Coherent) (s : String) : (a.ingest s).Coherent := by
  obtain ⟨hwf, hext, -⟩ := ingestTokens_spec ha.toWellFormed (Text.tokens s)
  exact { toContract := hext.contract ha.toContract hwf, pending := hext.pending ha.pending }

theorem Coherent.ingestAll (ha : a.Coherent) (sentences : List String) :
    (a.ingestAll sentences).Coherent := by
  induction sentences generalizing a with
  | nil => exact ha
  | cons s sentences ih => exact ih (ha.ingest s)

theorem Coherent.perform (ha : a.Coherent) (x : Action) : (a.perform x).Coherent := by
  cases x with
  | ingest s => exact ha.ingest s
  | step => exact ha.advance
  | settle bound =>
    obtain ⟨n, -, heq⟩ := ha.settle_eq bound
    have hafter : a.perform (.settle bound) = Automaton.advance^[n] a := by
      rw [Automaton.perform, heq]
    rw [hafter]
    exact ha.iterate n

theorem Coherent.performAll (ha : a.Coherent) (actions : List Action) :
    (a.performAll actions).Coherent := by
  induction actions generalizing a with
  | nil => exact ha
  | cons x actions ih => exact ih (ha.perform x)

theorem coherent_performAll (actions : List Action) : (empty.performAll actions).Coherent :=
  coherent_empty.performAll actions

/-- After every run the contract holds, a further step succeeds, and so does settling within any
bound: no violation is ever reported. -/
theorem run_meets_contract (actions : List Action) :
    (empty.performAll actions).violation? = none ∧
      (∃ report, (empty.performAll actions).step.result = .ok report) ∧
      ∀ bound, ∃ taken, ((empty.performAll actions).settle bound).result = .ok taken := by
  have ha := coherent_performAll actions
  refine ⟨violation?_eq_none_iff.2 ha.toContract, ?_, ?_⟩
  · obtain ⟨report, hrun, -⟩ := ha.step_eq
    exact ⟨report, by rw [hrun]⟩
  · intro bound
    obtain ⟨n, -, heq⟩ := ha.settle_eq bound
    exact ⟨n, by rw [heq]⟩

end StateMerging.Automaton
