import StateMerging.Proofs.Groups

/-!
# One step of generalization

`step_spec`: a step of an automaton that meets its contract succeeds, and `Advance` says what it
does.  The automaton after it is a quotient that meets the contract, each merge takes a node away,
and without a merge only the frontier and the phase change.

An automaton is `Pending` when every nondeterministic node waits on the frontier.  A step keeps
this, because a merge makes no node outside its group nondeterministic and the fresh node is noted
when it is made; and then a step of a nondeterministic automaton repairs a node.
-/

namespace StateMerging.Automaton

variable {a b c : Automaton} {t : Tally} {g : SortedSet NodeId} {p q : NodeId}

/-- Every nondeterministic node waits on the frontier; before the final nodes are unified there is
none. -/
def Pending (a : Automaton) : Prop :=
  ∀ q, a.isNondeterministic q = true → a.phase = .finalsUnified ∧ q ∈ a.frontier

/-- What one step makes of an automaton. -/
structure Advance (a : Automaton) (report : StepReport) (b : Automaton) : Prop where
  contract : b.Contract
  quotient : ∃ h, IsQuotient h a b
  phase_eq : b.phase = .finalsUnified
  nextName_eq : b.nextName = a.nextName
  /-- Every merge takes at least one node away. -/
  size_add_merges : b.size + report.merges ≤ a.size
  /-- Without a merge only the frontier and the phase change. -/
  unchanged : report.merges = 0 → b = { a with phase := .finalsUnified, frontier := b.frontier }
  pending : a.Pending → b.Pending
  /-- A nondeterministic automaton is repaired. -/
  repairs : a.Pending → a.isDeterministic = false →
    report.determinized = true ∧ 1 ≤ report.merges

/-! ## Pending nodes -/

theorem Pending.isNondeterministic_eq_false (ha : a.Pending) (hphase : a.phase = .notStarted)
    (q : NodeId) : a.isNondeterministic q = false := by
  rw [← Bool.not_eq_true]
  intro hq
  have := (ha q hq).1
  rw [hphase] at this
  cases this

theorem exists_isNondeterministic (hd : a.isDeterministic = false) :
    ∃ q, a.isNondeterministic q = true := by
  by_contra h
  have : a.isDeterministic = true :=
    isDeterministic_iff.2 fun q => Bool.eq_false_iff.2 fun hq => h ⟨q, hq⟩
  simp [hd] at this

/-! ## Unifying the final nodes -/

theorem WellFormed.isLive_of_mem_predecessors (ha : a.WellFormed) (hp : p ∈ a.predecessors q) :
    a.isLive p = true := by
  cases hq : a.isLive q with
  | true =>
    obtain ⟨-, l, harc⟩ := (ha.mem_predecessors hq).1 hp
    exact ha.isLive_source harc
  | false =>
    have : a.node? q = none := by simpa [isLive, Arena.isLive, node?] using hq
    simp [predecessors, this] at hp

/-- The frontier after the final nodes have been unified into `m`. -/
def finalFrontier (a : Automaton) (m : NodeId) : SortedSet NodeId :=
  if a.isNondeterministic m then (a.predecessors m).insert m else a.predecessors m

theorem mem_finalFrontier : p ∈ a.finalFrontier q ↔
    p ∈ a.predecessors q ∨ (p = q ∧ a.isNondeterministic q = true) := by
  rw [finalFrontier]
  split
  · rename_i h
    simp [h, or_comm]
  · rename_i h
    simp [h]

theorem WellFormed.contract_finalFrontier (ha : a.WellFormed) (q : NodeId) (phase : Phase) :
    { a with phase := phase, frontier := a.finalFrontier q }.Contract where
  toWellFormed := ha.resume _ _
  frontier_live p hp := by
    rcases mem_finalFrontier.1 hp with hp | ⟨rfl, hp⟩
    · exact ha.isLive_of_mem_predecessors hp
    · exact ha.isLive_of_isNondeterministic hp

/-- Unless there are two final nodes, only the frontier and the phase change. -/
theorem Advance.of_unmerged (ha : a.WellFormed) (hphase : a.phase = .notStarted)
    {frontier : SortedSet NodeId} (hlive : ∀ q ∈ frontier, a.isLive q = true) :
    Advance a ⟨.finalsUnified, 0, false⟩
      { a with phase := .finalsUnified, frontier := frontier } where
  contract := { toWellFormed := ha.resume _ _, frontier_live := hlive }
  quotient := ⟨id, (IsQuotient.refl a).resume _ _⟩
  phase_eq := rfl
  nextName_eq := rfl
  size_add_merges := Nat.le_refl _
  unchanged _ := rfl
  pending hpend q hq := by
    have : a.isNondeterministic q = true := hq
    simp [hpend.isNondeterministic_eq_false hphase q] at this
  repairs hpend hd := by
    obtain ⟨q, hq⟩ := exists_isNondeterministic hd
    simp [hpend.isNondeterministic_eq_false hphase q] at hq

/-- Two final nodes give way to one, and no other node can be nondeterministic then. -/
theorem Advance.of_unified (ha : a.WellFormed) (hphase : a.phase = .notStarted)
    (htwo : 2 ≤ a.finals.size) :
    Advance a ⟨.finalsUnified, 1, false⟩ { a.merged a.finals with
      phase := .finalsUnified, frontier := (a.merged a.finals).finalFrontier a.nodes.size } := by
  have hlive : ∀ q ∈ a.finals, a.isLive q = true := fun q hq => ha.isLive_of_mem_finals hq
  obtain ⟨p, hp, -⟩ := SortedSet.one_lt_size_iff.1 htwo
  have hwf := ha.merged hlive ⟨p, hp⟩
  refine
    { contract := hwf.contract_finalFrontier _ _
      quotient := ⟨_, (ha.isQuotient_merged hlive ⟨p, hp⟩).resume _ _⟩
      phase_eq := rfl
      nextName_eq := rfl
      size_add_merges := ha.size_merged_lt hlive htwo
      unchanged := fun h => absurd h Nat.one_ne_zero
      pending := fun hpend r hr => ⟨rfl, mem_finalFrontier.2 (Or.inr ?_)⟩
      repairs := fun hpend hd => ?_ }
  · have hr : (a.merged a.finals).isNondeterministic r = true := hr
    rcases ha.isNondeterministic_merged hlive ⟨p, hp⟩ hr with hm | hold
    · exact ⟨hm, hm ▸ hr⟩
    · simp [hpend.isNondeterministic_eq_false hphase r] at hold
  · obtain ⟨r, hr⟩ := exists_isNondeterministic hd
    simp [hpend.isNondeterministic_eq_false hphase r] at hr

theorem unifyFinals_spec (ha : a.WellFormed) (hphase : a.phase = .notStarted) :
    ∃ report b, a.unifyFinals = ⟨.ok report, b⟩ ∧ Advance a report b := by
  have hlive : ∀ q ∈ a.finals, a.isLive q = true := fun q hq => ha.isLive_of_mem_finals hq
  by_cases hlt : a.finals.size < 2
  · have hmerge := merge_of_size_lt_two hlive hlt
    rcases SortedSet.size_lt_two_cases hlt with ⟨hmin, -⟩ | ⟨m, hmin, -⟩
    · rw [hmin] at hmerge
      refine ⟨_, _, by rw [unifyFinals, hmerge], Advance.of_unmerged ha hphase fun q hq => ?_⟩
      exact absurd hq (SortedSet.not_mem_empty q)
    · rw [hmin] at hmerge
      refine ⟨_, _, by rw [unifyFinals, hmerge], ?_⟩
      rw [if_neg (by omega)]
      exact Advance.of_unmerged ha hphase
        (ha.contract_finalFrontier m .finalsUnified).frontier_live
  · have htwo : 2 ≤ a.finals.size := Nat.le_of_not_lt hlt
    refine ⟨_, _, ?_, Advance.of_unified ha hphase htwo⟩
    rw [unifyFinals, ha.merge_eq hlive htwo]
    simp only [show 1 < a.finals.size from htwo, if_true]
    rfl

/-! ## Merging nodes of the frontier -/

theorem WellFormed.isLive_of_mem_candidates (ha : a.WellFormed) (hg : g ∈ a.candidates.2)
    (hq : q ∈ g) : a.isLive q = true := by
  rw [candidates] at hg
  split at hg
  · obtain ⟨-, l, h⟩ := ha.mem_collisions.1 hg
    exact ha.isLive_target ((h q).1 hq)
  · obtain ⟨-, l, r, h⟩ := ha.mem_shared.1 hg
    exact ha.isLive_source ((h q).1 hq).2

/-- A nondeterministic node of the frontier makes the step choose targets of one label. -/
theorem WellFormed.candidates_of_isNondeterministic (ha : a.WellFormed) (hq : q ∈ a.frontier)
    (hn : a.isNondeterministic q = true) :
    a.candidates.1 = true ∧ ∃ g ∈ a.candidates.2, 1 < g.size := by
  rw [candidates]
  cases hfind : a.frontier.toList.find? fun q => !(a.collisions q).isEmpty with
  | none =>
    have := List.find?_eq_none.1 hfind q hq
    have hnil : a.collisions q = [] := by simpa using this
    simp [ha.collisions_eq_nil_iff.1 hnil] at hn
  | some r =>
    have hr : a.collisions r ≠ [] := by simpa using List.find?_some hfind
    obtain ⟨g, hg⟩ := List.exists_mem_of_ne_nil _ hr
    exact ⟨rfl, g, hg, (ha.mem_collisions.1 hg).1⟩

theorem mem_nextFrontier {frontier : SortedSet NodeId} :
    q ∈ a.nextFrontier t frontier ↔ a.isLive q = true ∧ ∃ r, t.redirections.root r = q ∧
      ((∃ p ∈ frontier, r ∈ a.predecessors (t.redirections.root p)) ∨
        ((∃ p ∈ frontier, t.redirections.root p = r) ∧ a.isNondeterministic r = true) ∨
        r ∈ t.unsettled) := by
  simp only [nextFrontier, SortedSet.mem_filter, SortedSet.mem_image, SortedSet.mem_union,
    SortedSet.mem_ofList, List.mem_flatMap, SortedSet.mem_toList]
  rw [and_comm]
  refine and_congr_right fun _ => exists_congr fun r => ?_
  rw [and_comm]
  refine and_congr_right fun _ => or_congr_left ?_
  constructor
  · rintro ⟨_, ⟨p, hp, rfl⟩, hr⟩
    exact ⟨p, hp, hr⟩
  · rintro ⟨p, hp, hr⟩
    exact ⟨_, ⟨p, hp, rfl⟩, hr⟩

/-- The merges of a step that looks at the frontier, and what it makes of them. -/
theorem mergeFrontier_eq (ha : a.Contract) :
    ∃ t c, Progress a c t ∧
      (∀ p q, a.isLive p = true → a.isLive q = true →
        (t.redirections.root p = t.redirections.root q ↔
          Relation.EqvGen (Joined a {} a.candidates.2) p q)) ∧
      a.mergeFrontier = ⟨.ok ⟨c.phase, t.merges, a.candidates.1⟩,
        { c with frontier := c.nextFrontier t a.frontier }⟩ := by
  obtain ⟨t, c, hrun, hc, hroot⟩ := mergeGroups_spec (.start ha.toWellFormed)
    fun g hg q hq => ha.isLive_of_mem_candidates hg hq
  refine ⟨t, c, hc, hroot, ?_⟩
  rw [mergeFrontier, find?_not_isLive ha.frontier_live]
  simp only [hrun]

/-- A nondeterministic node after the merges waits on the next frontier: it has kept its handle and
was waiting before, or it was noted when it was made. -/
theorem Progress.mem_nextFrontier_of_isNondeterministic
    (k : Progress a c t) (hpend : a.Pending)
    (hq : c.isNondeterministic q = true) : q ∈ c.nextFrontier t a.frontier := by
  have hlive := k.wellFormed.isLive_of_isNondeterministic hq
  have hroot := k.root_of_isLive hlive
  refine mem_nextFrontier.2 ⟨hlive, q, hroot, Or.inr ?_⟩
  rcases k.pending q hq with h | h
  · exact Or.inr h
  · exact Or.inl ⟨⟨q, (hpend q h).2, hroot⟩, hq⟩

theorem mergeFrontier_spec (ha : a.Contract) (hphase : a.phase = .finalsUnified) :
    ∃ report b, a.mergeFrontier = ⟨.ok report, b⟩ ∧ Advance a report b := by
  obtain ⟨t, c, hc, hroot, hrun⟩ := mergeFrontier_eq ha
  refine ⟨_, _, hrun, ?_⟩
  have hphase' : c.phase = .finalsUnified := hc.phase_eq.trans hphase
  refine
    { contract :=
        { toWellFormed := hc.wellFormed.resume c.phase _
          frontier_live := fun q hq => (mem_nextFrontier.1 hq).1 }
      quotient := ⟨t.redirections.root, hc.quotient.resume c.phase _⟩
      phase_eq := hphase'
      nextName_eq := hc.nextName_eq
      size_add_merges := hc.size_add_merges
      unchanged := fun h => ?_
      pending := fun hpend q hq =>
        ⟨hphase', hc.mem_nextFrontier_of_isNondeterministic hpend hq⟩
      repairs := fun hpend hd => ?_ }
  · obtain ⟨rfl, -⟩ := hc.unchanged h
    simp [hphase]
  · obtain ⟨q, hq⟩ := exists_isNondeterministic hd
    obtain ⟨hdet, g, hg, hsize⟩ := ha.candidates_of_isNondeterministic (hpend q hq).2 hq
    obtain ⟨p, hp, r, hr, hpr⟩ := SortedSet.one_lt_size_iff.1 hsize
    refine ⟨hdet, Nat.one_le_iff_ne_zero.2 fun h => hpr ?_⟩
    -- Without a merge no two nodes have come to the same root.
    obtain ⟨-, rfl⟩ := hc.unchanged h
    have hlive (s : NodeId) (hs : s ∈ g) := ha.isLive_of_mem_candidates hg hs
    simpa using (hroot p r (hlive p hp) (hlive r hr)).2
      (.rel _ _ ⟨hlive p hp, hlive r hr, Or.inr ⟨g, hg, hp, hr⟩⟩)

/-! ## Steps -/

theorem checked_eq {α : Type} {r : α} (hb : b.Contract) : checked ⟨.ok r, b⟩ = ⟨.ok r, b⟩ := by
  simp only [checked, violation?_eq_none_iff.2 hb]

theorem step_of_unifyFinals {report : StepReport} (hphase : a.phase = .notStarted)
    (hrun : a.unifyFinals = ⟨.ok report, b⟩) (hb : b.Contract) : a.step = ⟨.ok report, b⟩ := by
  rw [step, hphase]
  change checked a.unifyFinals = _
  rw [hrun, checked_eq hb]

theorem step_of_mergeFrontier {report : StepReport} (hphase : a.phase = .finalsUnified)
    (hrun : a.mergeFrontier = ⟨.ok report, b⟩) (hb : b.Contract) : a.step = ⟨.ok report, b⟩ := by
  rw [step, hphase]
  change checked a.mergeFrontier = _
  rw [hrun, checked_eq hb]

/-- A step of an automaton that meets its contract succeeds. -/
theorem step_spec (ha : a.Contract) :
    ∃ report b, a.step = ⟨.ok report, b⟩ ∧ Advance a report b := by
  cases hphase : a.phase with
  | notStarted =>
    obtain ⟨report, b, hrun, hb⟩ := unifyFinals_spec ha.toWellFormed hphase
    exact ⟨report, b, step_of_unifyFinals hphase hrun hb.contract, hb⟩
  | finalsUnified =>
    obtain ⟨report, b, hrun, hb⟩ := mergeFrontier_spec ha hphase
    exact ⟨report, b, step_of_mergeFrontier hphase hrun hb.contract, hb⟩

end StateMerging.Automaton
