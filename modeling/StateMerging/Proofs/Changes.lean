import StateMerging.Automaton.Heir
import StateMerging.Proofs.Fixpoint

/-!
# What actions are made of

Every action is a sequence of elementary changes of two kinds, and what each change keeps is kept by
all runs, by one induction on the sequence.

* `Merges h a b`: merges of at least two live nodes each lead from `a` to `b` and send every node
  along `h`; the phase and the frontier may change in between.  This is all that a step does, and
  `h` is then the heir that it gives to each node (`merges_advance`); so it is for several steps
  (`Coherent.merges_iterate`) and for settling (`Coherent.merges_settle`).
* `Grows a b`: fresh nodes with an edge to each, and marks on final nodes, lead from `a` to `b`.
  This is all that ingestion does (`grows_ingestTokens`).
* `Coherent.perform_cases`: an action is of the one kind or of the other.
-/

namespace StateMerging.Automaton

/-- A sequence of merges of live nodes leads from the one automaton to the other, and sends the
nodes along `h`. -/
inductive Merges : (NodeId → NodeId) → Automaton → Automaton → Prop
  /-- No merge. -/
  | refl (a : Automaton) : Merges id a a
  /-- One more merge. -/
  | merge {h : NodeId → NodeId} {a b : Automaton} {group : SortedSet NodeId} (k : Merges h a b)
    (live : ∀ q ∈ group, b.isLive q = true) (two : 2 ≤ group.size) :
    Merges (b.freshen group ∘ h) a (b.merged group)
  /-- Another phase and frontier. -/
  | resume {h : NodeId → NodeId} {a b : Automaton} (k : Merges h a b) (phase : Phase)
    (frontier : SortedSet NodeId) : Merges h a { b with phase := phase, frontier := frontier }

variable {a b c : Automaton} {h g : NodeId → NodeId} {t : Tally} {gs : List (SortedSet NodeId)}
  {group : SortedSet NodeId} {q : NodeId} {n bound : Nat}

namespace Merges

theorem trans (hab : Merges h a b) (hbc : Merges g b c) : Merges (g ∘ h) a c := by
  induction hbc with
  | refl => exact hab
  | merge _ live two ih => exact (ih hab).merge live two
  | resume _ phase frontier ih => exact (ih hab).resume phase frontier

theorem wellFormed (k : Merges h a b) (ha : a.WellFormed) : b.WellFormed := by
  induction k with
  | refl => exact ha
  | merge _ live two ih =>
    obtain ⟨p, hp, -⟩ := SortedSet.one_lt_size_iff.1 two
    exact (ih ha).merged live ⟨p, hp⟩
  | resume _ phase frontier ih => exact (ih ha).resume phase frontier

theorem isQuotient (k : Merges h a b) (ha : a.WellFormed) : IsQuotient h a b := by
  induction k with
  | refl a => exact .refl a
  | merge k live two ih =>
    obtain ⟨p, hp, -⟩ := SortedSet.one_lt_size_iff.1 two
    exact (ih ha).trans ((k.wellFormed ha).isQuotient_merged live ⟨p, hp⟩)
  | resume _ phase frontier ih => exact (ih ha).resume phase frontier

end Merges

/-! ## The groups of one step -/

/-- Merging groups one after the other is a sequence of merges along the roots of the
redirections. -/
theorem Progress.merges (k : Progress a b t) (hm : Merges t.redirections.root a b)
    (hgs : ∀ g ∈ gs, ∀ q ∈ g, a.isLive q = true) :
    ∃ t' c, b.mergeGroups t gs = ⟨.ok t', c⟩ ∧ Merges t'.redirections.root a c := by
  induction gs generalizing b t with
  | nil => exact ⟨t, b, rfl, hm⟩
  | cons g gs ih =>
    have hgs' : ∀ g ∈ gs, ∀ q ∈ g, a.isLive q = true :=
      fun g hg => hgs g (List.mem_cons_of_mem _ hg)
    have hg : ∀ q ∈ g, a.isLive q = true := hgs g List.mem_cons_self
    rcases Nat.lt_or_ge (g.image t.redirections.root).size 2 with hlt | htwo
    · obtain ⟨t', c, hrun, hc⟩ := ih k hm hgs'
      exact ⟨t', c, (mergeGroups_cons_of_lt hlt).trans hrun, hc⟩
    · have hlive : ∀ q ∈ g.image t.redirections.root, b.isLive q = true :=
        fun q => k.isLive_of_mem_image hg
      have hm' := hm.merge hlive htwo
      rw [← show _ = _ ∘ _ from funext (k.root_add hlive)] at hm'
      obtain ⟨t', c, hrun, hc⟩ := ih (k.merge hlive htwo) hm' hgs'
      exact ⟨t', c, (k.mergeGroups_cons hg htwo).trans hrun, hc⟩

/-! ## One step -/

theorem heir_of_finals_size_lt_two (ha : a.WellFormed) (hphase : a.phase = .notStarted)
    (hlt : a.finals.size < 2) : a.heir = id := by
  funext q
  have hmerge := merge_of_size_lt_two (fun q hq => ha.isLive_of_mem_finals hq) hlt
  rcases SortedSet.size_lt_two_cases hlt with ⟨hmin, -⟩ | ⟨m, hmin, hm⟩
  · simp [heir, hphase, hmerge, hmin]
  · simp only [heir, hphase, hmerge, hmin, collapse, hm]
    split
    · simp [*]
    · rfl

theorem heir_of_two_le_finals_size (ha : a.WellFormed) (hphase : a.phase = .notStarted)
    (htwo : 2 ≤ a.finals.size) : a.heir = a.freshen a.finals := by
  funext q
  simp only [heir, hphase, ha.merge_eq (fun q hq => ha.isLive_of_mem_finals hq) htwo]

theorem merges_unifyFinals (ha : a.WellFormed) (hphase : a.phase = .notStarted) :
    ∃ report b, a.unifyFinals = ⟨.ok report, b⟩ ∧ Merges a.heir a b := by
  have hlive : ∀ q ∈ a.finals, a.isLive q = true := fun q hq => ha.isLive_of_mem_finals hq
  by_cases hlt : a.finals.size < 2
  · rw [heir_of_finals_size_lt_two ha hphase hlt]
    have hmerge := merge_of_size_lt_two hlive hlt
    cases hmin : a.finals.min? with
    | none =>
      rw [hmin] at hmerge
      exact ⟨_, _, by rw [unifyFinals, hmerge], (Merges.refl a).resume _ _⟩
    | some m =>
      rw [hmin] at hmerge
      exact ⟨_, _, by rw [unifyFinals, hmerge], (Merges.refl a).resume _ _⟩
  · have htwo : 2 ≤ a.finals.size := Nat.le_of_not_lt hlt
    rw [heir_of_two_le_finals_size ha hphase htwo]
    exact ⟨_, _, by rw [unifyFinals, ha.merge_eq hlive htwo],
      ((Merges.refl a).merge hlive htwo).resume _ _⟩

theorem heir_of_mergeGroups (hphase : a.phase = .finalsUnified)
    (hrun : { a with frontier := ∅ }.mergeGroups {} a.candidates.2 = ⟨.ok t, c⟩) :
    a.heir = t.redirections.root := by
  funext q
  unfold heir
  split
  · simp_all
  · rw [hrun]

theorem merges_mergeFrontier (ha : a.Contract) (hphase : a.phase = .finalsUnified) :
    ∃ report b, a.mergeFrontier = ⟨.ok report, b⟩ ∧ Merges a.heir a b := by
  have hstart : Merges ({} : Tally).redirections.root a { a with frontier := ∅ } := by
    rw [show ({} : Tally).redirections.root = id from funext fun q => Redirections.root_empty q]
    exact (Merges.refl a).resume a.phase ∅
  obtain ⟨t, c, hrun, hc⟩ := (Progress.start ha.toWellFormed).merges hstart
    fun g hg q hq => ha.isLive_of_mem_candidates hg hq
  refine ⟨⟨c.phase, t.merges, a.candidates.1⟩,
    { c with frontier := c.nextFrontier t a.frontier }, ?_, ?_⟩
  · rw [mergeFrontier, find?_not_isLive ha.frontier_live]
    simp only [hrun]
  · rw [heir_of_mergeGroups hphase hrun]
    exact hc.resume c.phase _

/-- A step is a sequence of merges, and sends every node to its heir. -/
theorem merges_advance (ha : a.Contract) : Merges a.heir a a.advance := by
  cases hphase : a.phase with
  | notStarted =>
    obtain ⟨report, b, hrun, hb⟩ := merges_unifyFinals ha.toWellFormed hphase
    obtain ⟨_, _, hrun', k⟩ := unifyFinals_spec ha.toWellFormed hphase
    rw [hrun] at hrun'
    cases hrun'
    rwa [advance, step_of_unifyFinals hphase hrun k.contract]
  | finalsUnified =>
    obtain ⟨report, b, hrun, hb⟩ := merges_mergeFrontier ha hphase
    obtain ⟨_, _, hrun', k⟩ := mergeFrontier_spec ha hphase
    rw [hrun] at hrun'
    cases hrun'
    rwa [advance, step_of_mergeFrontier hphase hrun k.contract]

/-! ## Several steps -/

theorem heirAfter_add (a : Automaton) (m n : Nat) (q : NodeId) :
    a.heirAfter (m + n) q = (Automaton.advance^[m] a).heirAfter n (a.heirAfter m q) := by
  induction m generalizing a q with
  | zero => rw [Nat.zero_add]; rfl
  | succ m ih =>
    rw [Nat.succ_add]
    exact ih a.advance (a.heir q)

theorem Coherent.merges_iterate (ha : a.Coherent) (n : Nat) :
    Merges (a.heirAfter n) a (Automaton.advance^[n] a) := by
  induction n generalizing a with
  | zero => exact .refl a
  | succ n ih => exact (merges_advance ha.toContract).trans (ih ha.advance)

theorem Coherent.merges_settle (ha : a.Coherent) (bound : Nat) :
    Merges (fun q => a.heirOf q (.settle bound)) a (a.settle bound).after := by
  obtain ⟨n, -, heq⟩ := ha.settle_eq bound
  simp only [heirOf, heq]
  exact ha.merges_iterate n

/-! ## Ingestion -/

/-- Fresh nodes that are reached by one edge each, and marks on final nodes, lead from the one
automaton to the other. -/
inductive Grows (a : Automaton) : Automaton → Prop
  /-- No change. -/
  | refl : Grows a a
  /-- One more node, and an edge to it. -/
  | grow {b : Automaton} {q : NodeId} {t : String} (k : Grows a b) (live : b.isLive q = true)
    (free : b.successor q t = none) : Grows a (b.grow q t)
  /-- One more final node. -/
  | mark {b : Automaton} (k : Grows a b) (q : NodeId) : Grows a (b.markFinal q)

namespace Grows

theorem trans (hab : Grows a b) (hbc : Grows b c) : Grows a c := by
  induction hbc with
  | refl => exact hab
  | grow _ live free ih => exact ih.grow live free
  | mark _ q ih => exact ih.mark q

theorem wellFormed (k : Grows a b) (ha : a.WellFormed) : b.WellFormed := by
  induction k with
  | refl => exact ha
  | grow _ live _ ih => exact ih.grow live
  | mark _ q ih => exact ih.markFinal q

end Grows

theorem grows_extend (ha : a.WellFormed) (hq : a.isLive q = true) (w : List String) :
    Grows a (a.extend q w).2 := by
  induction w generalizing a q with
  | nil => exact .refl
  | cons t w ih =>
    cases hs : a.successor q t with
    | some p =>
      rw [extend_of_successor w hs]
      exact ih ha (ha.isLive_target (ha.arc_of_successor hs))
    | none =>
      rw [extend_of_grow w hs]
      exact (Grows.refl.grow hq hs).trans (ih (ha.grow hq) isLive_grow_size)

theorem grows_ingestTokens (ha : a.WellFormed) (w : List String) : Grows a (a.ingestTokens w) :=
  (grows_extend ha ha.start_live w).mark _

/-! ## Actions -/

/-- An action adds nodes and replaces none, or it is a sequence of merges. -/
theorem Coherent.perform_cases (ha : a.Coherent) (x : Action) :
    ((fun q => a.heirOf q x) = id ∧ Grows a (a.perform x)) ∨
      Merges (fun q => a.heirOf q x) a (a.perform x) := by
  cases x with
  | ingest s => exact Or.inl ⟨rfl, grows_ingestTokens ha.toWellFormed (Text.tokens s)⟩
  | step => exact Or.inr (merges_advance ha.toContract)
  | settle bound => exact Or.inr (ha.merges_settle bound)

end StateMerging.Automaton
