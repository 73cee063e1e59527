import StateMerging.Proofs.Closure
import StateMerging.Proofs.Lineage

/-!
# Frontier nodes with a shared target

Two nodes of the frontier that have an edge with one label to one target are merged by the next
step, unless the step repairs a nondeterministic node.  Such a step leaves the shared targets alone
and moves the frontier on all the same, to the predecessors of its nodes, so that a pair may drop
out and stay apart for good (`skipped_stays_apart`).

What the two nodes become is merged as soon as both are on the frontier of a deterministic
automaton, however many steps that takes; and once settling has stopped before its bound, nothing is
to come that has not been merged yet (`shared_target_is_merged`).
-/

namespace StateMerging.Automaton

open Relation

variable {a b : Automaton} {p q s : NodeId} {l : String} {k n bound : Nat}

/-! ## One step -/

/-- After the first step the heirs of two nodes agree exactly when the candidate pairs relate the
nodes. -/
theorem Contract.heir_eq_iff (ha : a.Contract) (hphase : a.phase = .finalsUnified)
    (hp : a.isLive p = true) (hq : a.isLive q = true) :
    a.heir p = a.heir q ↔ EqvGen (Candidate a) p q := by
  obtain ⟨t, c, hrun, k, hroot⟩ := mergeGroups_spec (.start ha.toWellFormed)
    fun g hg q hq => ha.isLive_of_mem_candidates hg hq
  rw [heir_of_mergeGroups hphase hrun, hroot p q hp hq]
  exact ha.eqvGen_candidates hphase fun _ => Iff.rfl

theorem Coherent.phase_iterate (ha : a.Coherent) (hphase : a.phase = .finalsUnified) (n : Nat) :
    (Automaton.advance^[n] a).phase = .finalsUnified := by
  induction n generalizing a with
  | zero => exact hphase
  | succ n ih =>
    obtain ⟨report, -, k⟩ := ha.step_eq
    exact ih ha.advance k.phase_eq

/-! ## Several steps -/

/-- Heirs that agree agree from then on. -/
theorem heirAfter_eq_of_le {m n : Nat} (h : a.heirAfter m p = a.heirAfter m q) (hmn : m ≤ n) :
    a.heirAfter n p = a.heirAfter n q := by
  obtain ⟨i, rfl⟩ := Nat.exists_eq_add_of_le hmn
  rw [heirAfter_add, heirAfter_add, h]

theorem Coherent.isLive_iterate (hb : b.Coherent) (h : TransGen Quiet b b) (n : Nat)
    (q : NodeId) : (Automaton.advance^[n] b).isLive q = b.isLive q := by
  induction n with
  | zero => rfl
  | succ n ih =>
    rw [Function.iterate_succ_apply', (hb.iterate n).eq_of_quiet (quiet_iterate h n)]
    exact ih

/-- Round a cycle of quiet steps every live node is its own heir. -/
theorem Coherent.heirAfter_of_cycle (hb : b.Coherent) (h : TransGen Quiet b b)
    (hq : b.isLive q = true) (n : Nat) : b.heirAfter n q = q :=
  ((hb.merges_iterate n).lineage hb.toWellFormed).fixed q hq
    ((hb.isLive_iterate h n q).trans hq)

/-- Two nodes with an edge of one label to one target have the same heir after a deterministic
automaton whose frontier has the heirs of both. -/
theorem Coherent.heirAfter_succ_eq (ha : a.Coherent) (hphase : a.phase = .finalsUnified)
    (hps : a.Arc p l s) (hqs : a.Arc q l s) (hd : (Automaton.advance^[n] a).isDeterministic = true)
    (hp : a.heirAfter n p ∈ (Automaton.advance^[n] a).frontier)
    (hq : a.heirAfter n q ∈ (Automaton.advance^[n] a).frontier) :
    a.heirAfter (n + 1) p = a.heirAfter (n + 1) q := by
  have hb := ha.iterate n
  have hquot := (ha.merges_iterate n).isQuotient ha.toWellFormed
  have hcand : Candidate (Automaton.advance^[n] a) (a.heirAfter n p) (a.heirAfter n q) :=
    (hb.candidate_iff_of_isDeterministic (ha.phase_iterate hphase n) hd).2
      ⟨hp, hq, l, a.heirAfter n s, hquot.arc_map hps, hquot.arc_map hqs⟩
  rw [heirAfter_add, heirAfter_add]
  exact (hb.toContract.heir_eq_iff (ha.phase_iterate hphase n) (hb.frontier_live _ hp)
    (hb.frontier_live _ hq)).2 (.rel _ _ hcand)

/-! ## Settling -/

/-- Let two nodes have an edge with one label to one target, after the final nodes have been
unified, and let settling stop before its bound.  If some steps lead to a deterministic automaton
that has the heirs of both nodes on its frontier, settling has replaced the two by one live node.
With no steps at all, this says that a deterministic automaton loses no candidate of its frontier.
-/
theorem shared_target_is_merged (ha : a.Reachable) (hphase : a.phase = .finalsUnified)
    (hps : a.Arc p l s) (hqs : a.Arc q l s) (hrun : (a.settle bound).result = .ok k)
    (hk : k < bound) (hd : (Automaton.advance^[n] a).isDeterministic = true)
    (hp : a.heirAfter n p ∈ (Automaton.advance^[n] a).frontier)
    (hq : a.heirAfter n q ∈ (Automaton.advance^[n] a).frontier) :
    a.heirOf p (.settle bound) = a.heirOf q (.settle bound) ∧
      (a.settle bound).after.isLive (a.heirOf p (.settle bound)) = true := by
  have hcoh := ha.coherent
  have hcycle := hcoh.settle_cycle hrun hk
  have hquot := (hcoh.merges_iterate k).isQuotient hcoh.toWellFormed
  have hsettled {r : NodeId} (harc : a.Arc r l s) :
      a.heirAfter (k + (n + 1)) r = a.heirAfter k r := by
    have hlive : (Automaton.advance^[k] a).isLive (a.heirAfter k r) = true :=
      (hquot.isLive_iff _).2 ⟨r, hcoh.isLive_source harc, rfl⟩
    rw [heirAfter_add]
    exact (hcoh.iterate k).heirAfter_of_cycle hcycle hlive (n + 1)
  have hmerged : a.heirAfter (k + (n + 1)) p = a.heirAfter (k + (n + 1)) q :=
    heirAfter_eq_of_le (hcoh.heirAfter_succ_eq hphase hps hqs hd hp hq) (Nat.le_add_left _ _)
  rw [hsettled hps, hsettled hqs] at hmerged
  simp only [heirOf, hrun]
  refine ⟨hmerged, ?_⟩
  rw [hcoh.settle_of_result hrun]
  exact (hquot.isLive_iff _).2 ⟨p, hcoh.isLive_source hps, rfl⟩

/-- Six sentences with their final nodes unified, which makes a node of the frontier
nondeterministic, while two other nodes of the frontier share it as a target. -/
def delayed : Automaton :=
  empty.performAll [.ingest "a", .ingest "a x y", .ingest "b", .ingest "b x z", .ingest "c p",
    .ingest "e p", .step]

theorem delayed_merges_shared_target :
    delayed.isDeterministic = false ∧
      delayed.heirOf 7 (.settle 9) = delayed.heirOf 9 (.settle 9) ∧
      (delayed.settle 9).after.isLive (delayed.heirOf 7 (.settle 9)) = true := by
  refine ⟨by decide +kernel, ?_⟩
  exact shared_target_is_merged (l := "p") (s := 11) (k := 4) (n := 1) ⟨_, rfl⟩
    (by decide +kernel) ⟨7, by decide +kernel⟩ ⟨9, by decide +kernel⟩ (by decide +kernel)
    (by decide) (by decide +kernel) (by decide +kernel) (by decide +kernel)

/-- Two nodes of the frontier share a target below a third one, which is nondeterministic. -/
def skipped : Automaton :=
  empty.performAll [.ingest "a m c", .ingest "b m c", .ingest "x e", .ingest "x d h", .ingest "y e",
    .ingest "y d k", .step, .step]

/-- Settling stops before its bound and has repaired the third node, but the two are still apart. -/
theorem skipped_stays_apart :
    skipped.Reachable ∧ skipped.phase = .finalsUnified ∧
      1 ∈ skipped.frontier ∧ 4 ∈ skipped.frontier ∧
      skipped.edge? 1 = some ⟨1, "m", 16⟩ ∧ skipped.edge? 4 = some ⟨4, "m", 16⟩ ∧
      (skipped.settle 9).result = .ok 2 ∧
      skipped.heirOf 1 (.settle 9) = 1 ∧ (skipped.settle 9).after.isLive 1 = true ∧
      skipped.heirOf 4 (.settle 9) = 4 ∧ (skipped.settle 9).after.isLive 4 = true := by
  refine ⟨⟨_, rfl⟩, ?_⟩
  decide +kernel

end StateMerging.Automaton
