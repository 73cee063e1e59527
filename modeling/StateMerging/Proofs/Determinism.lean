import StateMerging.Proofs.Runs

/-!
# Nondeterminism is repaired

On every run the nondeterministic nodes wait on the frontier, so a step of a nondeterministic
automaton merges something.  Every merge takes a node away, and therefore the steps restore
determinism before they have outnumbered the nodes (`Coherent.exists_iterate_isDeterministic`).
-/

namespace StateMerging.Automaton

variable {a b : Automaton} {report : StepReport}

theorem Reachable.coherent (ha : a.Reachable) : a.Coherent := by
  obtain ⟨actions, rfl⟩ := ha
  exact coherent_performAll actions

/-- Two edges of one label make their source nondeterministic. -/
theorem WellFormed.isNondeterministic_of_edges (ha : a.WellFormed) {e f : EdgeId} {x y : Edge}
    (hne : e ≠ f) (he : a.edge? e = some x) (hf : a.edge? f = some y)
    (hsource : x.source = y.source) (hlabel : x.label = y.label) :
    a.isNondeterministic x.source = true := by
  refine ha.isNondeterministic_iff.2 ⟨x.label, x.target, y.target, ?_, ⟨e, he⟩, ⟨f, ?_⟩⟩
  · -- Edges with one target as well would be the same edge.
    intro htarget
    have hxy : x = y := by
      obtain ⟨s, l, t⟩ := x
      rw [show y = ⟨y.source, y.label, y.target⟩ from rfl, ← hsource, ← hlabel, ← htarget]
    subst hxy
    exact hne (ha.edge_unique e f x he hf)
  · rw [hf, hsource, hlabel]

theorem Advance.isDeterministic (k : Advance a report b) (ha : a.Coherent)
    (hzero : report.merges = 0) : a.isDeterministic = true := by
  cases hd : a.isDeterministic with
  | true => rfl
  | false =>
    have hmerges := (k.repairs ha.pending hd).2
    omega

/-- Without a merge the structure stays, and with it the determinism. -/
theorem Advance.isDeterministic_after (k : Advance a report b) (ha : a.Coherent)
    (hzero : report.merges = 0) : b.isDeterministic = true := by
  have hb := k.unchanged hzero
  rw [hb]
  exact k.isDeterministic ha hzero

/-- As long as the automaton is nondeterministic each step takes a node away. -/
theorem Coherent.exists_iterate_isDeterministic (ha : a.Coherent) :
    ∃ n ≤ a.size, (Automaton.advance^[n] a).isDeterministic = true := by
  induction hsize : a.size using Nat.strongRecOn generalizing a with
  | ind size ih =>
    subst hsize
    cases hd : a.isDeterministic with
    | true => exact ⟨0, Nat.zero_le _, hd⟩
    | false =>
      obtain ⟨report, -, k⟩ := ha.step_eq
      have hsize := k.size_add_merges
      have hmerges := (k.repairs ha.pending hd).2
      obtain ⟨n, hn, hdet⟩ := ih a.advance.size (by omega) ha.advance rfl
      exact ⟨n + 1, by omega, hdet⟩

/-- After every run: the source of two edges of one label is on the frontier; if there is such a
node, the next step repairs one by a merge; a step without a merge leaves a deterministic automaton;
and no more steps than there are nodes lead to one. -/
theorem nondeterminism_is_repaired (ha : a.Reachable) :
    (∀ e f x y, e ≠ f → a.edge? e = some x → a.edge? f = some y → x.source = y.source →
      x.label = y.label → x.source ∈ a.frontier) ∧
    (a.isDeterministic = false → ∃ report, a.step.result = .ok report ∧
      report.determinized = true ∧ 1 ≤ report.merges) ∧
    (∀ report, a.step.result = .ok report → report.merges = 0 →
      a.step.after.isDeterministic = true) ∧
    ∃ n ≤ a.size, (advance^[n] a).isDeterministic = true := by
  have hcoh := ha.coherent
  obtain ⟨report, hrun, k⟩ := hcoh.step_eq
  refine ⟨?_, ?_, ?_, hcoh.exists_iterate_isDeterministic⟩
  · intro e f x y hne he hf hsource hlabel
    have hn := hcoh.isNondeterministic_of_edges hne he hf hsource hlabel
    exact (hcoh.pending x.source hn).2
  · intro hd
    exact ⟨report, by rw [hrun], k.repairs hcoh.pending hd⟩
  · intro report' hrun' hzero
    rw [hrun] at hrun'
    cases hrun'
    exact k.isDeterministic_after hcoh hzero

/-- The sentences `a`, `a c`, `b`, `b c d` with their final nodes unified: edges with the label `c`
lead from the unified node to itself and to another node. -/
def clash : Automaton :=
  empty.performAll [.ingest "a", .ingest "a c", .ingest "b", .ingest "b c d", .step]

theorem clash_is_repaired :
    clash.isDeterministic = false ∧ 6 ∈ clash.frontier ∧
      (∃ report, clash.step.result = .ok report ∧ report.determinized = true ∧
        1 ≤ report.merges) ∧
      ∃ n ≤ clash.size, (advance^[n] clash).isDeterministic = true := by
  have hd : clash.isDeterministic = false := by decide +kernel
  have h := nondeterminism_is_repaired (a := clash) ⟨_, rfl⟩
  refine ⟨hd, ?_, h.2.1 hd, h.2.2.2⟩
  have he : clash.edge? 1 = some ⟨6, "c", 6⟩ := by decide +kernel
  have hf : clash.edge? 3 = some ⟨6, "c", 4⟩ := by decide +kernel
  exact h.1 1 3 _ _ (by decide) he hf rfl rfl

end StateMerging.Automaton
