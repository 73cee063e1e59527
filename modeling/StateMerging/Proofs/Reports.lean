import StateMerging.Proofs.Changes
import StateMerging.Proofs.Convergence
import StateMerging.Proofs.Sentences

/-!
# What the report of a step says

A step reports how many groups it merged.  Each merge takes a node away, and without a merge only
the frontier and the phase change, neither of which is in a snapshot: so the report tells a change
exactly when the snapshot has one (`Coherent.changed_eq_false_iff`).  No step adds an edge
(`IsQuotient.edgeCount_le`).

A run that ingests its sentences first and only makes steps afterwards is an iteration of the step
(`Coherent.exists_performAll_eq`).  Its first step sends all final nodes to one
(`heir_eq_of_mem_finals`), and the later ones keep it one (`Coherent.finals_size_iterate`).
-/

namespace StateMerging

/-- Whether the action makes a step for sure. -/
def Action.makesStep : Action → Bool
  | .ingest _ => false
  | .step => true
  | .settle bound => 0 < bound

namespace Automaton

variable {a b : Automaton} {report : StepReport} {h : NodeId → NodeId} {p q : NodeId}
  {sentences : List String} {later : List Action}

/-! ## The report -/

theorem size_snapshot (a : Automaton) : a.snapshot.nodes.size = a.size := by
  simp [snapshot, size, Arena.count]

theorem Advance.changed_eq_false_iff (k : Advance a report b) :
    report.changed = false ↔ b.snapshot = a.snapshot := by
  have hsize := k.size_add_merges
  constructor
  · intro hchanged
    have hzero : report.merges = 0 := by simpa [StepReport.changed] using hchanged
    rw [k.unchanged hzero]
    rfl
  · intro hsnap
    have heq : b.size = a.size := by rw [← size_snapshot, ← size_snapshot, hsnap]
    simp only [StepReport.changed, decide_eq_false_iff_not]
    omega

/-- No edge is added: each one had its handle before. -/
theorem IsQuotient.edgeCount_le (k : IsQuotient h a b) : b.edgeCount ≤ a.edgeCount := by
  rw [edgeCount, edgeCount, Arena.count_eq_card, Arena.count_eq_card]
  refine Finset.card_le_card fun e he => ?_
  obtain ⟨y, hy⟩ := Arena.isLive_iff.1 (Arena.mem_handles.1 he)
  obtain ⟨x, hx, -⟩ := k.edge_of e y hy
  exact Arena.mem_handles.2 (Arena.isLive_iff.2 ⟨x, hx⟩)

/-! ## The final nodes -/

/-- The first step sends all final nodes to one. -/
theorem heir_eq_of_mem_finals (ha : a.WellFormed) (hphase : a.phase = .notStarted)
    (hp : p ∈ a.finals) (hq : q ∈ a.finals) : a.heir p = a.heir q := by
  by_cases hlt : a.finals.size < 2
  · rw [SortedSet.eq_of_size_lt_two hlt hp hq]
  · rw [heir_of_two_le_finals_size ha hphase (Nat.le_of_not_lt hlt)]
    exact (collapse_of_mem hp).trans (collapse_of_mem hq).symm

theorem Coherent.mem_finals_iterate (ha : a.Coherent) (n : Nat) :
    q ∈ (Automaton.advance^[n] a).finals ↔ ∃ p ∈ a.finals, a.heirAfter n p = q :=
  ((ha.merges_iterate n).isQuotient ha.toWellFormed).mem_finals q

/-- After the first step there is one final node, if there was any. -/
theorem Coherent.finals_size_iterate (ha : a.Coherent) (hphase : a.phase = .notStarted) (n : Nat) :
    (Automaton.advance^[n + 1] a).finals.size = if a.finals.isEmpty then 0 else 1 := by
  have hmem (q) := ha.mem_finals_iterate (q := q) (n + 1)
  have hlt : ¬ 1 < (Automaton.advance^[n + 1] a).finals.size := by
    intro htwo
    obtain ⟨p', hp', q', hq', hne⟩ := SortedSet.one_lt_size_iff.1 htwo
    obtain ⟨p, hp, rfl⟩ := (hmem p').1 hp'
    obtain ⟨q, hq, rfl⟩ := (hmem q').1 hq'
    apply hne
    rw [heirAfter, heirAfter, heir_eq_of_mem_finals ha.toWellFormed hphase hp hq]
  split
  · rename_i hempty
    have hnone : a.finals = ∅ := SortedSet.isEmpty_iff.1 hempty
    refine List.length_eq_zero_iff.2 (List.eq_nil_iff_forall_not_mem.2 fun q hq => ?_)
    obtain ⟨p, hp, -⟩ := (hmem q).1 hq
    rw [hnone] at hp
    exact SortedSet.not_mem_empty p hp
  · rename_i hempty
    obtain ⟨p, hp⟩ := List.exists_mem_of_ne_nil a.finals.toList
      (by simpa [SortedSet.isEmpty] using hempty)
    have hpos : 0 < (Automaton.advance^[n + 1] a).finals.size :=
      List.length_pos_of_mem ((hmem _).2 ⟨p, hp, rfl⟩)
    omega

/-! ## Sentences first, steps afterwards -/

theorem Coherent.phase_performAll_ingest (ha : a.Coherent) (sentences : List String) :
    (a.performAll (sentences.map .ingest)).phase = a.phase := by
  induction sentences generalizing a with
  | nil => rfl
  | cons s sentences ih =>
    obtain ⟨-, hext, -⟩ := ingestTokens_spec ha.toWellFormed (Text.tokens s)
    rw [List.map_cons, performAll_cons, ih (ha.perform (.ingest s))]
    exact hext.phase_eq

theorem isEmpty_finals_performAll_ingest (sentences : List String) :
    (empty.performAll (sentences.map .ingest)).finals.isEmpty = sentences.isEmpty := by
  cases sentences with
  | nil => rfl
  | cons s sentences =>
    have hs : Action.ingest s ∈ (s :: sentences).map .ingest := List.mem_cons_self
    obtain ⟨q, hq, -⟩ := coherent_empty.accepts_of_mem hs
    simpa [SortedSet.isEmpty] using List.ne_nil_of_mem hq

/-- Settling within a bound that is not zero makes a step at least. -/
theorem Coherent.exists_settle_succ_eq (ha : a.Coherent) (bound : Nat) :
    ∃ n, (a.settle (bound + 1)).after = Automaton.advance^[n + 1] a := by
  obtain ⟨report, hrun, -⟩ := ha.step_eq
  have hrest (seen) : ∃ n, (a.advance.settleFrom 1 seen bound).after =
      Automaton.advance^[n + 1] a := by
    obtain ⟨n, -, heq⟩ := ha.advance.settleFrom_eq 1 seen bound
    exact ⟨n, by rw [heq, Function.iterate_succ_apply]⟩
  rw [settle, settleFrom_succ hrun]
  split
  · exact hrest []
  · split
    · exact ⟨0, rfl⟩
    · exact hrest _

theorem Coherent.exists_performAll_eq (ha : a.Coherent) (hlater : ∀ s, .ingest s ∉ later) :
    ∃ n, a.performAll later = Automaton.advance^[n] a ∧
      ((∃ x ∈ later, x.makesStep = true) → 0 < n) := by
  induction later generalizing a with
  | nil => exact ⟨0, rfl, by simp⟩
  | cons x later ih =>
    obtain ⟨m, hm, hpos⟩ : ∃ m, a.perform x = Automaton.advance^[m] a ∧
        (x.makesStep = true → 0 < m) := by
      cases x with
      | ingest s => exact absurd List.mem_cons_self (hlater s)
      | step => exact ⟨1, rfl, fun _ => Nat.one_pos⟩
      | settle bound =>
        cases bound with
        | zero => exact ⟨0, rfl, by simp [Action.makesStep]⟩
        | succ bound =>
          obtain ⟨m, hm⟩ := ha.exists_settle_succ_eq bound
          exact ⟨m + 1, hm, fun _ => Nat.succ_pos m⟩
    obtain ⟨n, hn, hpos'⟩ := ih (ha.perform x) fun s hs => hlater s (List.mem_cons_of_mem x hs)
    refine ⟨n + m, ?_, ?_⟩
    · rw [performAll_cons, hn, hm, Function.iterate_add_apply]
    · rw [List.exists_mem_cons_iff]
      rintro (hx | hx)
      · exact Nat.lt_of_lt_of_le (hpos hx) (Nat.le_add_left m n)
      · exact Nat.lt_of_lt_of_le (hpos' hx) (Nat.le_add_right n m)

/-- After every run a step succeeds, and its report denies a change exactly when the snapshot stays
the same; the size drops by the reported merges or more, and there are no more edges than before.
When the run has ingested its sentences before its first step, there is exactly one final node after
that step if there was a sentence, and none otherwise. -/
theorem report_tells_truth :
    (∀ a : Automaton, a.Reachable → ∃ report, a.step.result = .ok report ∧
      (report.changed = false ↔ a.step.after.snapshot = a.snapshot) ∧
      a.step.after.size + report.merges ≤ a.size ∧
      a.step.after.edgeCount ≤ a.edgeCount) ∧
    ∀ (sentences : List String) (later : List Action), (∀ s, .ingest s ∉ later) →
      (∃ x ∈ later, x.makesStep = true) →
      (empty.performAll (sentences.map .ingest ++ later)).finals.size =
        if sentences.isEmpty then 0 else 1 := by
  refine ⟨fun a ha => ?_, fun sentences later hlater hstep => ?_⟩
  · obtain ⟨report, hrun, k⟩ := ha.coherent.step_eq
    obtain ⟨h, hquot⟩ := k.quotient
    exact ⟨report, by rw [hrun], k.changed_eq_false_iff, k.size_add_merges, hquot.edgeCount_le⟩
  · have ha := coherent_performAll (sentences.map .ingest)
    have hphase := coherent_empty.phase_performAll_ingest sentences
    obtain ⟨n, hn, hpos⟩ := ha.exists_performAll_eq hlater
    obtain ⟨n, rfl⟩ := Nat.exists_eq_succ_of_ne_zero (hpos hstep).ne'
    rw [performAll_append, hn, ha.finals_size_iterate hphase, isEmpty_finals_performAll_ingest]

/-- The next step of `clash` repairs a node by a merge, and the sentences of `clash` share one final
node however the run goes on. -/
theorem clash_report_tells_truth :
    (∃ report, clash.step.result = .ok report ∧ report.changed = true ∧
      clash.step.after.snapshot ≠ clash.snapshot ∧
      clash.step.after.size + report.merges ≤ clash.size ∧
      clash.step.after.edgeCount ≤ clash.edgeCount) ∧
    (empty.performAll (["a", "a c", "b", "b c d"].map .ingest ++ [.step, .settle 9])).finals.size =
      1 := by
  constructor
  · have hstep : clash.step.result = .ok ⟨.finalsUnified, 1, true⟩ := by decide +kernel
    obtain ⟨report, hrun, hchanged, hsize, hedges⟩ := report_tells_truth.1 clash ⟨_, rfl⟩
    have hreport : report = ⟨.finalsUnified, 1, true⟩ := Except.ok.inj (hrun.symm.trans hstep)
    have htrue : report.changed = true := by rw [hreport]; rfl
    refine ⟨report, hrun, htrue, fun hsnap => ?_, hsize, hedges⟩
    rw [hchanged.2 hsnap] at htrue
    cases htrue
  · have hfinals := report_tells_truth.2 ["a", "a c", "b", "b c d"] [.step, .settle 9] (by simp)
      ⟨.step, by simp, rfl⟩
    rwa [if_neg (by decide)] at hfinals

end Automaton

end StateMerging
