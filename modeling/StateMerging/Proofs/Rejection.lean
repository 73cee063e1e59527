import StateMerging.Proofs.Rewiring
import StateMerging.Proofs.Steps

/-!
# Rejected merges change nothing

A merge can break off in four ways, three of them after edges were rewired, and a step of
generalization takes the frontier away before it merges.  In an automaton that meets its contract,
the frontier aside, only the early exits are left: a merge is rejected when a member of its group is
not live, a step when a frontier node is not, and nothing has been changed then.

* `RejectsRetired a s kind o`: the outcome `o` is a violation of one kind exactly when a member of
  `s` is not live.  It names the lowest such member, and leaves `a` as it was.
* `rejected_merge_changes_nothing`: this is so for the merge of any group, and for every step after
  the first one.
-/

namespace StateMerging.Automaton

variable {a : Automaton} {group s : SortedSet NodeId} {q : NodeId}

/-! ## The lowest node that is not live -/

/-- The lowest member of a set that is not live. -/
def LeastRetired (a : Automaton) (s : SortedSet NodeId) (q : NodeId) : Prop :=
  q ∈ s ∧ a.isLive q = false ∧ ∀ p ∈ s, a.isLive p = false → q ≤ p

theorem leastRetired_of_find? (h : (s.toList.find? fun q => !a.isLive q) = some q) :
    a.LeastRetired s q := by
  obtain ⟨hq, hdead, hleast⟩ := SortedSet.of_find?_eq_some h
  refine ⟨hq, by simpa using hdead, fun p hp hp' => ?_⟩
  exact Nat.isLE_compare.1 (hleast p hp (by simpa using hp'))

theorem find?_retired_cases (a : Automaton) (s : SortedSet NodeId) :
    (∀ q ∈ s, a.isLive q = true) ∨
      ∃ q, (s.toList.find? fun q => !a.isLive q) = some q ∧ a.LeastRetired s q := by
  cases hfind : s.toList.find? fun q => !a.isLive q with
  | some q => exact Or.inr ⟨q, rfl, leastRetired_of_find? hfind⟩
  | none =>
    refine Or.inl fun q hq => ?_
    simpa using List.find?_eq_none.1 hfind q hq

/-- The operation is rejected exactly when a member of the set is not live; the violation names the
lowest such member, and the automaton is as it was. -/
structure RejectsRetired {α : Type} (a : Automaton) (s : SortedSet NodeId)
    (kind : NodeId → Violation) (o : Outcome α) : Prop where
  error_iff : (∃ v, o.result = .error v) ↔ ∃ q ∈ s, a.isLive q = false
  error_eq : ∀ v, o.result = .error v → ∃ q, a.LeastRetired s q ∧ v = kind q
  after_eq : ∀ v, o.result = .error v → o.after = a

theorem rejectsRetired_of_ok {α : Type} {kind : NodeId → Violation} {o : Outcome α} {r : α}
    (hlive : ∀ q ∈ s, a.isLive q = true) (ho : o.result = .ok r) : RejectsRetired a s kind o where
  error_iff := by
    constructor
    · intro h
      obtain ⟨v, hv⟩ := h
      cases ho.symm.trans hv
    · intro h
      obtain ⟨q, hq, hdead⟩ := h
      simp [hlive q hq] at hdead
  error_eq v hv := by cases ho.symm.trans hv
  after_eq _ hv := by cases ho.symm.trans hv

theorem rejectsRetired_of_error {α : Type} {kind : NodeId → Violation}
    (hq : a.LeastRetired s q) :
    RejectsRetired a s kind (⟨.error (kind q), a⟩ : Outcome α) where
  error_iff := ⟨fun _ => ⟨q, hq.1, hq.2.1⟩, fun _ => ⟨kind q, rfl⟩⟩
  error_eq _ hv := ⟨q, hq, (Except.error.inj hv).symm⟩
  after_eq _ _ := rfl

/-! ## Merges and steps -/

/-- The late exits of a merge are out of reach. -/
theorem WellFormed.rejectsRetired_merge (ha : a.WellFormed) (group : SortedSet NodeId) :
    RejectsRetired a group .retiredMergeInput (a.merge group) := by
  rcases a.find?_retired_cases group with hlive | ⟨q, hfind, hq⟩
  · by_cases hlt : group.size < 2
    · exact rejectsRetired_of_ok hlive (by rw [merge_of_size_lt_two hlive hlt])
    · exact rejectsRetired_of_ok hlive (by rw [ha.merge_eq hlive (Nat.le_of_not_lt hlt)])
  · rw [merge, hfind]
    exact rejectsRetired_of_error hq

/-- The frontier is looked through before it is taken away. -/
theorem WellFormed.rejectsRetired_step (ha : a.WellFormed) (hphase : a.phase = .finalsUnified) :
    RejectsRetired a a.frontier .retiredFrontierNode a.step := by
  rcases a.find?_retired_cases a.frontier with hlive | ⟨q, hfind, hq⟩
  · have hcontract : a.Contract := { toWellFormed := ha, frontier_live := hlive }
    obtain ⟨report, b, hrun, -⟩ := step_spec hcontract
    exact rejectsRetired_of_ok hlive (by rw [hrun])
  · have hrun : a.mergeFrontier = ⟨.error (.retiredFrontierNode q), a⟩ := by
      rw [mergeFrontier, hfind]
    rw [step, hphase]
    change RejectsRetired a a.frontier .retiredFrontierNode (checked a.mergeFrontier)
    rw [hrun]
    exact rejectsRetired_of_error hq

/-- In an automaton that meets its contract, the frontier aside, a merge of any set of handles,
which visits the edges in place, is rejected exactly when a member is not live; the violation names
the lowest such member, and nothing has been changed.  So it is with a step after the first one and
the members of the frontier. -/
theorem rejected_merge_changes_nothing (ha : a.WellFormed) (group : SortedSet NodeId) :
    a.merge group = a.mergeInPlace group ∧
      RejectsRetired a group .retiredMergeInput (a.merge group) ∧
      (a.phase = .finalsUnified →
        RejectsRetired a a.frontier .retiredFrontierNode a.step) :=
  ⟨merge_eq_mergeInPlace a group, ha.rejectsRetired_merge group, ha.rejectsRetired_step⟩

/-- The automaton of `sprig` after its first step, with a frontier that lists, besides a live node,
a final node that was merged away and a handle that was never issued. -/
def astray : Automaton := { sprig.step.after with frontier := .ofList [0, 3, 9] }

/-- A group with another node that was merged away is rejected, and so is the step. -/
theorem astray_changes_nothing :
    astray.WellFormed ∧ astray.phase = .finalsUnified ∧
      (astray.merge (.ofList [1, 4, 9])).result = .error (.retiredMergeInput 4) ∧
      (astray.merge (.ofList [1, 4, 9])).after = astray ∧
      astray.step.result = .error (.retiredFrontierNode 3) ∧ astray.step.after = astray := by
  have hcontract : sprig.step.after.Contract := violation?_eq_none_iff.1 (by decide +kernel)
  have hwf : astray.WellFormed := hcontract.toWellFormed.resume _ _
  have hphase : astray.phase = .finalsUnified := by decide +kernel
  have hmerge : (astray.merge (.ofList [1, 4, 9])).result = .error (.retiredMergeInput 4) := by
    decide +kernel
  have hstep : astray.step.result = .error (.retiredFrontierNode 3) := by decide +kernel
  obtain ⟨-, h, h'⟩ := rejected_merge_changes_nothing hwf (.ofList [1, 4, 9])
  exact ⟨hwf, hphase, hmerge, h.after_eq _ hmerge, hstep, (h' hphase).after_eq _ hstep⟩

end StateMerging.Automaton
