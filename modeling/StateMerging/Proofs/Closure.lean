import StateMerging.Proofs.Determinism
import Mathlib.Logic.Function.Basic

/-!
# One step merges the closure of its candidate pairs

`Candidate a p q` holds of the pairs of nodes that a step of `a` has a reason to identify: two final
nodes in the first step, later two targets of one label of the lowest frontier node that branches,
and if none does, two frontier nodes that share an adjacency.

* `IsQuotientBy r h a b`: `b` is the quotient of `a` along `h`, and `h` identifies two live nodes
  exactly when the least equivalence that contains `r` relates them.
* `step_isQuotientBy`: a step makes the quotient by its candidate pairs.  Merging the groups one
  after the other, through the replacements made meanwhile, identifies no more and no less.
* `IsQuotient.isRenaming`: two quotients that identify the same nodes differ in the fresh handles
  only.
* `IsQuotientBy.isRenaming`: so do two quotients by one relation, and the order in which the groups
  are merged does not matter (`mergeGroups_isQuotientBy`).
-/

namespace StateMerging.Automaton

open Relation

variable {a b c : Automaton} {t : Tally} {gs : List (SortedSet NodeId)} {p q r s : NodeId}
  {l : String} {e : EdgeId} {y : Edge} {h g : NodeId → NodeId} {rel : NodeId → NodeId → Prop}

/-! ## Candidate pairs -/

/-- Edges of one label lead from the node to two targets. -/
def Branches (a : Automaton) (r : NodeId) : Prop := ∃ l t u, t ≠ u ∧ a.Arc r l t ∧ a.Arc r l u

/-- The lowest node of the frontier that branches. -/
def FirstBranching (a : Automaton) (r : NodeId) : Prop :=
  r ∈ a.frontier ∧ a.Branches r ∧ ∀ q ∈ a.frontier, a.Branches q → r ≤ q

/-- Two nodes that a step has a reason to identify. -/
inductive Candidate (a : Automaton) : NodeId → NodeId → Prop
  /-- The first step looks for final nodes. -/
  | finals {p q : NodeId} (phase : a.phase = .notStarted) (hp : p ∈ a.finals) (hq : q ∈ a.finals) :
    Candidate a p q
  /-- Later steps look for targets of one label, if a node of the frontier branches. -/
  | targets {p q r : NodeId} {l : String} (phase : a.phase = .finalsUnified)
    (first : a.FirstBranching r) (hp : a.Arc r l p) (hq : a.Arc r l q) : Candidate a p q
  /-- Otherwise they look for nodes of the frontier with one label to one target. -/
  | sources {p q s : NodeId} {l : String} (phase : a.phase = .finalsUnified)
    (hnone : ∀ r ∈ a.frontier, ¬ a.Branches r) (hp : p ∈ a.frontier) (hq : q ∈ a.frontier)
    (hps : a.Arc p l s) (hqs : a.Arc q l s) : Candidate a p q

/-! ## Quotients by a relation -/

/-- The second automaton is the quotient of the first by the least equivalence that contains a
relation.  Only classes of several nodes are replaced. -/
structure IsQuotientBy (rel : NodeId → NodeId → Prop) (h : NodeId → NodeId) (a b : Automaton) : Prop
    extends IsQuotient h a b where
  eq_iff : ∀ p q, a.isLive p = true → a.isLive q = true → (h p = h q ↔ EqvGen rel p q)
  moved_together : ∀ p, a.isLive p = true → h p ≠ p →
    ∃ q, q ≠ p ∧ a.isLive q = true ∧ h q = h p

/-- An edge of a quotient is carried by the lowest handle of the edges that are mapped to it. -/
theorem IsQuotient.edge?_iff (k : IsQuotient h a b) (hb : b.WellFormed) : b.edge? e = some y ↔
    ∃ x, a.edge? e = some x ∧ a.Survives h e x ∧ x.map h = y := by
  constructor
  · intro hy
    obtain ⟨x, hx, rfl⟩ := k.edge_of e y hy
    refine ⟨x, hx, fun f z hz hzx => ?_, rfl⟩
    obtain ⟨i, hi, hiz⟩ := k.edge_kept f z hz
    rw [hzx] at hiz
    exact hb.edge_unique e i _ hy hiz ▸ hi
  · rintro ⟨x, hx, hs, rfl⟩
    obtain ⟨f, hf, hfx⟩ := k.edge_kept e x hx
    obtain ⟨z, hz, hzx⟩ := k.edge_of f _ hfx
    exact Nat.le_antisymm (hs f z hz hzx) hf ▸ hfx

namespace IsQuotientBy

/-- A node that no other one is identified with keeps its handle. -/
theorem eq_self (k : IsQuotientBy rel h a b) (hp : a.isLive p = true)
    (halone : ∀ q, a.isLive q = true → EqvGen rel p q → q = p) : h p = p := by
  by_contra hne
  obtain ⟨q, hqp, hq, hh⟩ := k.moved_together p hp hne
  exact hqp (halone q hq ((k.eq_iff p q hp hq).1 hh.symm))

/-- Nodes that are identified get a handle that was never used. -/
theorem size_le (k : IsQuotientBy rel h a b) (hp : a.isLive p = true) (hq : a.isLive q = true)
    (hpq : p ≠ q) (hrel : EqvGen rel p q) : a.nodes.size ≤ h p := by
  have hh := (k.eq_iff p q hp hq).2 hrel
  by_contra hlt
  have hlt : h p < a.nodes.size := Nat.lt_of_not_le hlt
  exact hpq ((k.eq_of_lt hlt rfl).trans (k.eq_of_lt hlt hh.symm).symm)

/-- Two nodes are identified by the one quotient when they are by the other. -/
theorem eq_iff_eq (k : IsQuotientBy rel h a b) (k' : IsQuotientBy rel g a c)
    (hp : a.isLive p = true) (hq : a.isLive q = true) : h p = h q ↔ g p = g q :=
  (k.eq_iff p q hp hq).trans (k'.eq_iff p q hp hq).symm

end IsQuotientBy

/-! ## Renamings -/

/-- The second automaton is the first one with its nodes renamed along `r`; the edges keep their
handles. -/
structure IsRenaming (r : NodeId → NodeId) (a b : Automaton) : Prop where
  isLive_iff : ∀ q, b.isLive q = true ↔ ∃ p, a.isLive p = true ∧ r p = q
  injective : ∀ p q, a.isLive p = true → a.isLive q = true → r p = r q → p = q
  start_eq : b.start = r a.start
  mem_finals : ∀ q, q ∈ b.finals ↔ ∃ p ∈ a.finals, r p = q
  edge?_eq : ∀ e, b.edge? e = (a.edge? e).map (·.map r)

/-- What is the same for nodes with one image is a function of the image. -/
theorem exists_factor {β : Type*} [Nonempty β] {f : NodeId → β}
    (hf : ∀ p q, a.isLive p = true → a.isLive q = true → h p = h q → f p = f q) :
    ∃ f' : NodeId → β, ∀ p, a.isLive p = true → f' (h p) = f p := by
  have hfactor : Function.FactorsThrough (fun p : { p // a.isLive p = true } => f p)
      fun p => h p := fun p q => hf p q p.2 q.2
  exact ⟨Function.extend _ _ fun _ => Classical.arbitrary β,
    fun p hp => hfactor.extend_apply _ ⟨p, hp⟩⟩

/-- Maps that identify the same nodes identify the same edges. -/
theorem WellFormed.map_eq_iff (ha : a.WellFormed)
    (hsame : ∀ p q, a.isLive p = true → a.isLive q = true → (h p = h q ↔ g p = g q)) {f : EdgeId}
    {x z : Edge} (hx : a.edge? e = some x) (hz : a.edge? f = some z) :
    x.map h = z.map h ↔ x.map g = z.map g := by
  simp only [Edge.map, Edge.mk.injEq]
  rw [hsame _ _ (ha.source_live e x hx) (ha.source_live f z hz),
    hsame _ _ (ha.target_live e x hx) (ha.target_live f z hz)]

theorem WellFormed.survives_iff (ha : a.WellFormed)
    (hsame : ∀ p q, a.isLive p = true → a.isLive q = true → (h p = h q ↔ g p = g q)) {x : Edge}
    (hx : a.edge? e = some x) : a.Survives h e x ↔ a.Survives g e x := by
  refine forall₂_congr fun f z => forall_congr' fun hz => ?_
  rw [ha.map_eq_iff hsame hz hx]

section

variable {r : NodeId → NodeId} (k : IsQuotient h a b) (k' : IsQuotient g a c) (ha : a.WellFormed)
  (hb : b.WellFormed) (hc : c.WellFormed)
  (hsame : ∀ p q, a.isLive p = true → a.isLive q = true → (h p = h q ↔ g p = g q))
  (hr : ∀ p, a.isLive p = true → r (h p) = g p)
include k k' ha hb hc hsame hr

/-- An edge survives both quotients or neither. -/
theorem IsQuotient.edge?_rename (e : EdgeId) : c.edge? e = (b.edge? e).map (·.map r) := by
  have himage {x : Edge} (hx : a.edge? e = some x) : (x.map h).map r = x.map g := by
    simp only [Edge.map, hr _ (ha.source_live e x hx), hr _ (ha.target_live e x hx)]
  ext1 y
  rw [k'.edge?_iff hc, Option.map_eq_some_iff]
  constructor
  · rintro ⟨x, hx, hs, rfl⟩
    exact ⟨x.map h, (k.edge?_iff hb).2 ⟨x, hx, (ha.survives_iff hsame hx).2 hs, rfl⟩, himage hx⟩
  · rintro ⟨_, hy, rfl⟩
    obtain ⟨x, hx, hs, rfl⟩ := (k.edge?_iff hb).1 hy
    exact ⟨x, hx, (ha.survives_iff hsame hx).1 hs, (himage hx).symm⟩

/-- Quotients that identify the same nodes are the same up to the handles of the replacements. -/
theorem IsQuotient.isRenaming : IsRenaming r b c where
  isLive_iff q := by
    rw [k'.isLive_iff]
    constructor
    · rintro ⟨p, hp, rfl⟩
      exact ⟨h p, (k.isLive_iff _).2 ⟨p, hp, rfl⟩, hr p hp⟩
    · rintro ⟨_, hq, rfl⟩
      obtain ⟨p, hp, rfl⟩ := (k.isLive_iff _).1 hq
      exact ⟨p, hp, (hr p hp).symm⟩
  injective p q hp hq := by
    obtain ⟨p', hp', rfl⟩ := (k.isLive_iff p).1 hp
    obtain ⟨q', hq', rfl⟩ := (k.isLive_iff q).1 hq
    rw [hr p' hp', hr q' hq']
    exact (hsame p' q' hp' hq').2
  start_eq := by rw [k'.start_eq, k.start_eq, hr _ ha.start_live]
  mem_finals q := by
    rw [k'.mem_finals]
    constructor
    · rintro ⟨p, hp, rfl⟩
      exact ⟨h p, (k.mem_finals _).2 ⟨p, hp, rfl⟩, hr p (ha.isLive_of_mem_finals hp)⟩
    · rintro ⟨_, hq, rfl⟩
      obtain ⟨p, hp, rfl⟩ := (k.mem_finals _).1 hq
      exact ⟨p, hp, (hr p (ha.isLive_of_mem_finals hp)).symm⟩
  edge?_eq := k.edge?_rename k' ha hb hc hsame hr

end

namespace IsQuotientBy

/-- A node that keeps its handle in the one quotient keeps it in the other. -/
theorem eq_self_of_lt (k : IsQuotientBy rel h a b) (k' : IsQuotientBy rel g a c)
    (hp : a.isLive p = true) (hfix : h p = p) : g p = p := by
  by_contra hne
  obtain ⟨q, hqp, hq, hgq⟩ := k'.moved_together p hp hne
  have hh : h q = p := ((k.eq_iff_eq k' hq hp).2 hgq).trans hfix
  exact hqp (k.eq_of_lt (lt_size_of_isLive hp) hh)

/-- Two quotients by one relation are the same up to the handles of the replacements. -/
theorem isRenaming (k : IsQuotientBy rel h a b) (k' : IsQuotientBy rel g a c) (ha : a.WellFormed)
    (hb : b.WellFormed) (hc : c.WellFormed) :
    ∃ r, IsRenaming r b c ∧ ∀ q < a.nodes.size, b.isLive q = true → r q = q := by
  have hsame (p q) (hp : a.isLive p = true) (hq : a.isLive q = true) : h p = h q ↔ g p = g q :=
    k.eq_iff_eq k' hp hq
  obtain ⟨r, hr⟩ := exists_factor (f := g) fun p q hp hq => (hsame p q hp hq).1
  refine ⟨r, k.toIsQuotient.isRenaming k'.toIsQuotient ha hb hc hsame hr, fun q hlt hq => ?_⟩
  obtain ⟨p, hp, hpq⟩ := (k.isLive_iff q).1 hq
  obtain rfl : p = q := k.eq_of_lt hlt hpq
  have hg := hr p hp
  rwa [hpq, k.eq_self_of_lt k' hp hpq] at hg

end IsQuotientBy

/-! ## The groups that a step merges -/

theorem WellFormed.branches_iff (ha : a.WellFormed) :
    (!(a.collisions r).isEmpty) = true ↔ a.Branches r := by
  rw [Branches, ← ha.isNondeterministic_iff, Bool.not_eq_true', ← Bool.not_eq_true,
    List.isEmpty_iff, ha.collisions_eq_nil_iff, Bool.not_eq_false]

theorem WellFormed.candidates_cases (ha : a.WellFormed) :
    (∃ r, a.FirstBranching r ∧ a.candidates = (true, a.collisions r)) ∨
      (∀ r ∈ a.frontier, ¬ a.Branches r) ∧ a.candidates = (false, a.shared) := by
  rw [candidates]
  cases hfind : a.frontier.toList.find? fun q => !(a.collisions q).isEmpty with
  | some r =>
    obtain ⟨hr, hbranches, hleast⟩ := SortedSet.of_find?_eq_some hfind
    refine Or.inl ⟨r, ⟨hr, ha.branches_iff.1 hbranches, fun q hq hbq => ?_⟩, rfl⟩
    exact Nat.isLE_compare.1 (hleast q hq (ha.branches_iff.2 hbq))
  | none =>
    refine Or.inr ⟨fun r hr hbranches => ?_, rfl⟩
    exact List.find?_eq_none.1 hfind r hr (ha.branches_iff.2 hbranches)

theorem WellFormed.candidate_of_mem (ha : a.WellFormed) (hphase : a.phase = .finalsUnified)
    {g : SortedSet NodeId} (hg : g ∈ a.candidates.2) (hp : p ∈ g) (hq : q ∈ g) :
    Candidate a p q := by
  rcases ha.candidates_cases with ⟨r, hr, hcand⟩ | ⟨hnone, hcand⟩
  · rw [hcand] at hg
    obtain ⟨-, l, hl⟩ := ha.mem_collisions.1 hg
    exact .targets hphase hr ((hl p).1 hp) ((hl q).1 hq)
  · rw [hcand] at hg
    obtain ⟨-, l, s, hl⟩ := ha.mem_shared.1 hg
    obtain ⟨hpf, hps⟩ := (hl p).1 hp
    obtain ⟨hqf, hqs⟩ := (hl q).1 hq
    exact .sources hphase hnone hpf hqf hps hqs

theorem WellFormed.exists_group (ha : a.WellFormed) (hphase : a.phase = .finalsUnified)
    (hpq : Candidate a p q) (hne : p ≠ q) : ∃ g ∈ a.candidates.2, p ∈ g ∧ q ∈ g := by
  cases hpq with
  | finals phase => simp [hphase] at phase
  | @targets r l _ first hp hq =>
    rcases ha.candidates_cases with ⟨r', hr', hcand⟩ | ⟨hnone, -⟩
    · obtain rfl : r = r' :=
        Nat.le_antisymm (first.2.2 r' hr'.1 hr'.2.1) (hr'.2.2 r first.1 first.2.1)
      obtain ⟨g, hg⟩ := ha.exists_targets (ha.isLive_source hp) l
      have hsize : 1 < g.size :=
        SortedSet.one_lt_size_iff.2 ⟨p, (hg p).2 hp, q, (hg q).2 hq, hne⟩
      rw [hcand]
      exact ⟨g, ha.mem_collisions.2 ⟨hsize, l, hg⟩, (hg p).2 hp, (hg q).2 hq⟩
    · exact absurd first.2.1 (hnone r first.1)
  | @sources s l _ hnone hp hq hps hqs =>
    rcases ha.candidates_cases with ⟨r, hr, -⟩ | ⟨-, hcand⟩
    · exact absurd hr.2.1 (hnone r hr.1)
    · classical
      have hg (q) : q ∈ a.frontier.filter (fun q => decide (a.Arc q l s)) ↔
          q ∈ a.frontier ∧ a.Arc q l s := by simp
      rw [hcand]
      exact ⟨_, ha.mem_shared.2 ⟨⟨p, (hg p).2 ⟨hp, hps⟩⟩, l, s, hg⟩, (hg p).2 ⟨hp, hps⟩,
        (hg q).2 ⟨hq, hqs⟩⟩

/-- The groups of a step join the nodes that its candidate pairs relate. -/
theorem WellFormed.eqvGen_candidates (ha : a.WellFormed) (hphase : a.phase = .finalsUnified)
    (hgs : ∀ g, g ∈ gs ↔ g ∈ a.candidates.2) :
    EqvGen (Joined a {} gs) p q ↔ EqvGen (Candidate a) p q := by
  constructor
  · refine eqvGen_of_le fun p q hj => ?_
    obtain ⟨-, -, heq | ⟨g, hg, hp, hq⟩⟩ := hj
    · obtain rfl : p = q := by simpa using heq
      exact .refl p
    · exact .rel p q (ha.candidate_of_mem hphase ((hgs g).1 hg) hp hq)
  · refine eqvGen_of_le fun p q hpq => ?_
    by_cases heq : p = q
    · exact heq ▸ .refl p
    · obtain ⟨g, hg, hp, hq⟩ := ha.exists_group hphase hpq heq
      exact .rel p q ⟨ha.isLive_of_mem_candidates hg hp, ha.isLive_of_mem_candidates hg hq,
        Or.inr ⟨g, (hgs g).2 hg, hp, hq⟩⟩

/-! ## One step -/

theorem Progress.isQuotientBy (k : Progress a c t) (ha : a.WellFormed)
    (hphase : a.phase = .finalsUnified) (hgs : ∀ g, g ∈ gs ↔ g ∈ a.candidates.2)
    (hroot : ∀ p q, a.isLive p = true → a.isLive q = true →
      (t.redirections.root p = t.redirections.root q ↔ EqvGen (Joined a {} gs) p q)) :
    IsQuotientBy (Candidate a) t.redirections.root a c where
  toIsQuotient := k.quotient
  eq_iff p q hp hq := (hroot p q hp hq).trans (ha.eqvGen_candidates hphase hgs)
  moved_together := k.moved_together

/-- Merging the groups of a step in any order makes the quotient by its candidate pairs. -/
theorem mergeGroups_isQuotientBy (ha : a.WellFormed) (hphase : a.phase = .finalsUnified)
    (hgs : ∀ g, g ∈ gs ↔ g ∈ a.candidates.2) :
    ∃ t c, { a with frontier := ∅ }.mergeGroups {} gs = ⟨.ok t, c⟩ ∧ c.WellFormed ∧
      IsQuotientBy (Candidate a) t.redirections.root a c := by
  obtain ⟨t, c, hrun, k, hroot⟩ := mergeGroups_spec (.start ha)
    fun g hg q hq => ha.isLive_of_mem_candidates ((hgs g).1 hg) hq
  exact ⟨t, c, hrun, k.wellFormed, k.isQuotientBy ha hphase hgs hroot⟩

/-- Frontier and phase are no part of the structure. -/
theorem IsQuotientBy.resume (k : IsQuotientBy rel h a b) (phase : Phase)
    (frontier : SortedSet NodeId) :
    IsQuotientBy rel h a { b with phase := phase, frontier := frontier } :=
  { k with toIsQuotient := k.toIsQuotient.resume phase frontier }

/-- Before the first step only final nodes are looked for. -/
theorem candidate_iff_of_notStarted (hphase : a.phase = .notStarted) :
    Candidate a p q ↔ p ∈ a.finals ∧ q ∈ a.finals := by
  refine ⟨fun hpq => ?_, fun hpq => .finals hphase hpq.1 hpq.2⟩
  cases hpq with
  | finals _ hp hq => exact ⟨hp, hq⟩
  | targets phase => simp [hphase] at phase
  | sources phase => simp [hphase] at phase

/-- In a deterministic automaton later steps look for a shared adjacency only. -/
theorem WellFormed.candidate_iff_of_isDeterministic (ha : a.WellFormed)
    (hphase : a.phase = .finalsUnified) (hd : a.isDeterministic = true) :
    Candidate a p q ↔ p ∈ a.frontier ∧ q ∈ a.frontier ∧ ∃ l s, a.Arc p l s ∧ a.Arc q l s := by
  have hnone (r) : ¬ a.Branches r := by
    rw [Branches, ← ha.isNondeterministic_iff, isDeterministic_iff.1 hd]
    exact Bool.false_ne_true
  constructor
  · intro hpq
    cases hpq with
    | finals phase => simp [hphase] at phase
    | targets _ first => exact absurd first.2.1 (hnone _)
    | sources _ _ hp hq hps hqs => exact ⟨hp, hq, _, _, hps, hqs⟩
  · rintro ⟨hp, hq, l, s, hps, hqs⟩
    exact .sources hphase (fun r _ => hnone r) hp hq hps hqs

theorem isQuotientBy_of_size_lt_two (hphase : a.phase = .notStarted) (hlt : a.finals.size < 2) :
    IsQuotientBy (Candidate a) id a a where
  toIsQuotient := .refl a
  eq_iff p q _ _ := by
    refine ⟨fun (heq : p = q) => heq ▸ .refl p, eq_of_eqvGen (f := id) fun p q hpq => ?_⟩
    obtain ⟨hp, hq⟩ := (candidate_iff_of_notStarted hphase).1 hpq
    exact SortedSet.eq_of_size_lt_two hlt hp hq
  moved_together p _ hne := absurd rfl hne

theorem WellFormed.isQuotientBy_merged_finals (ha : a.WellFormed) (hphase : a.phase = .notStarted)
    (htwo : 2 ≤ a.finals.size) :
    IsQuotientBy (Candidate a) (a.freshen a.finals) a (a.merged a.finals) where
  toIsQuotient := ha.isQuotient_merged (fun q hq => ha.isLive_of_mem_finals hq)
    ((SortedSet.one_lt_size_iff.1 htwo).imp fun p hp => hp.1)
  eq_iff p q hp hq := by
    constructor
    · intro heq
      rcases eq_or_mem_of_collapse_eq (ne_size_of_isLive hp) (ne_size_of_isLive hq) heq with
        rfl | hpq
      · exact .refl p
      · exact .rel _ _ (.finals hphase hpq.1 hpq.2)
    · refine eq_of_eqvGen fun p q hpq => ?_
      obtain ⟨hp, hq⟩ := (candidate_iff_of_notStarted hphase).1 hpq
      rw [freshen, collapse_of_mem hp, collapse_of_mem hq]
  moved_together p hp hne := by
    have hmem : p ∈ a.finals := by
      by_contra hmem
      exact hne (collapse_of_not_mem hmem)
    obtain ⟨q, hq, hqp⟩ := SortedSet.exists_ne_of_one_lt_size htwo p
    refine ⟨q, hqp, ha.isLive_of_mem_finals hq, ?_⟩
    rw [freshen, collapse_of_mem hmem, collapse_of_mem hq]

theorem unifyFinals_isQuotientBy (ha : a.WellFormed) (hphase : a.phase = .notStarted) :
    ∃ report b h, a.unifyFinals = ⟨.ok report, b⟩ ∧ report.determinized = false ∧
      IsQuotientBy (Candidate a) h a b := by
  have hlive : ∀ q ∈ a.finals, a.isLive q = true := fun q hq => ha.isLive_of_mem_finals hq
  by_cases hlt : a.finals.size < 2
  · have k := isQuotientBy_of_size_lt_two hphase hlt
    have hmerge := merge_of_size_lt_two hlive hlt
    cases hmin : a.finals.min? with
    | none =>
      rw [hmin] at hmerge
      exact ⟨_, _, id, by rw [unifyFinals, hmerge], rfl, k.resume _ _⟩
    | some m =>
      rw [hmin] at hmerge
      exact ⟨_, _, id, by rw [unifyFinals, hmerge], rfl, k.resume _ _⟩
  · have htwo : 2 ≤ a.finals.size := Nat.le_of_not_lt hlt
    have k := ha.isQuotientBy_merged_finals hphase htwo
    exact ⟨_, _, _, by rw [unifyFinals, ha.merge_eq hlive htwo], rfl, k.resume _ _⟩

/-- A step makes the quotient by its candidate pairs, and says whether a frontier node branches. -/
theorem step_isQuotientBy (ha : a.Contract) :
    ∃ report b h, a.step = ⟨.ok report, b⟩ ∧ b.Contract ∧ IsQuotientBy (Candidate a) h a b ∧
      (report.determinized = true ↔ a.phase = .finalsUnified ∧ ∃ r ∈ a.frontier, a.Branches r) := by
  cases hphase : a.phase with
  | notStarted =>
    obtain ⟨report, b, h, hrun, hdet, k⟩ := unifyFinals_isQuotientBy ha.toWellFormed hphase
    obtain ⟨_, _, hrun', hb⟩ := unifyFinals_spec ha.toWellFormed hphase
    rw [hrun] at hrun'
    cases hrun'
    have hstep := step_of_unifyFinals hphase hrun hb.contract
    exact ⟨report, b, h, hstep, hb.contract, k, by simp [hdet]⟩
  | finalsUnified =>
    obtain ⟨t, c, hc, hroot, hrun⟩ := mergeFrontier_eq ha
    obtain ⟨_, _, hrun', hb⟩ := mergeFrontier_spec ha hphase
    rw [hrun] at hrun'
    cases hrun'
    have k := hc.isQuotientBy ha.toWellFormed hphase (fun _ => Iff.rfl) hroot
    have hstep := step_of_mergeFrontier hphase hrun hb.contract
    refine ⟨_, _, _, hstep, hb.contract, k.resume c.phase _, ?_⟩
    rcases ha.candidates_cases with ⟨r, hr, hcand⟩ | ⟨hnone, hcand⟩
    · rw [hcand]
      simpa using ⟨r, hr.1, hr.2.1⟩
    · rw [hcand]
      simpa using hnone

/-- After every run, a step makes the quotient of the automaton by the least equivalence `EqvGen`
that contains the candidate pairs, and reports whether it has repaired a frontier node that
branches.  A node that is equivalent to no other one keeps its handle, its name and its acceptance;
equivalent nodes are replaced by one under a handle that was never used.  An edge stays under the
lowest handle of the edges that are mapped to it.  Merging the groups in any other order leads to
the same automaton, up to the handles of the replacements. -/
theorem step_merges_closure (ha : a.Reachable) : ∃ report h,
    a.step.result = .ok report ∧
    (report.determinized = true ↔ a.phase = .finalsUnified ∧ ∃ r ∈ a.frontier, a.Branches r) ∧
    IsQuotient h a a.step.after ∧
    (∀ p q, a.isLive p = true → a.isLive q = true → (h p = h q ↔ EqvGen (Candidate a) p q)) ∧
    (∀ p n, a.node? p = some n →
      (∀ q, a.isLive q = true → EqvGen (Candidate a) p q → q = p) →
      h p = p ∧ ∃ k, a.step.after.node? p = some k ∧ k.name = n.name ∧ k.accepting = n.accepting) ∧
    (∀ p q, a.isLive p = true → a.isLive q = true → p ≠ q → EqvGen (Candidate a) p q →
      a.nodes.size ≤ h p) ∧
    (∀ p l q, a.step.after.Arc p l q ↔ ∃ p' q', a.Arc p' l q' ∧ h p' = p ∧ h q' = q) ∧
    (∀ e y, a.step.after.edge? e = some y ↔
      ∃ x, a.edge? e = some x ∧ a.Survives h e x ∧ x.map h = y) ∧
    (a.phase = .finalsUnified → ∀ gs, (∀ g, g ∈ gs ↔ g ∈ a.candidates.2) →
      ∃ t c r, { a with frontier := ∅ }.mergeGroups {} gs = ⟨.ok t, c⟩ ∧
        IsRenaming r a.step.after c ∧
        ∀ q < a.nodes.size, a.step.after.isLive q = true → r q = q) := by
  have hcoh := ha.coherent
  obtain ⟨report, b, h, hrun, hb, k, hdet⟩ := step_isQuotientBy hcoh.toContract
  rw [hrun]
  refine ⟨report, h, rfl, hdet, k.toIsQuotient, k.eq_iff, fun p n hn halone => ?_,
    fun p q hp hq hpq hrel => k.size_le hp hq hpq hrel, fun p l q => k.arc_iff,
    fun e y => k.edge?_iff hb.toWellFormed, fun hphase gs hgs => ?_⟩
  · have hfix := k.eq_self (isLive_iff.2 ⟨n, hn⟩) halone
    exact ⟨hfix, k.node_kept p n hn hfix⟩
  · obtain ⟨t, c, hmerge, hc, k'⟩ := mergeGroups_isQuotientBy hcoh.toWellFormed hphase hgs
    obtain ⟨r, hr, hfix⟩ := k.isRenaming k' hcoh.toWellFormed hb.toWellFormed hc
    exact ⟨t, c, r, hmerge, hr, hfix⟩

/-- The sentences `p x`, `q x`, `p y`, `r y` with their final nodes unified: one node of the
frontier shares an adjacency with a second node, and another one with a third. -/
def overlap : Automaton :=
  empty.performAll [.ingest "p x", .ingest "q x", .ingest "p y", .ingest "r y", .step]

theorem overlap_merges_closure : ∃ report, ∃ h : NodeId → NodeId,
    overlap.step.result = .ok report ∧ h 3 = h 6 ∧ overlap.nodes.size ≤ h 3 ∧ h 8 = 8 ∧
      ∃ t c r, { overlap with frontier := ∅ }.mergeGroups {} overlap.candidates.2.reverse =
        ⟨.ok t, c⟩ ∧ IsRenaming r overlap.step.after c := by
  have hreach : overlap.Reachable := ⟨_, rfl⟩
  have hphase : overlap.phase = .finalsUnified := by decide +kernel
  have hfrontier : overlap.frontier.toList = [1, 3, 6] := by decide +kernel
  have mem (q) : q ∈ overlap.frontier ↔ q = 1 ∨ q = 3 ∨ q = 6 := by
    simp [← SortedSet.mem_toList, hfrontier]
  have candidate (p q) := hreach.coherent.candidate_iff_of_isDeterministic (p := p) (q := q) hphase
    (by decide +kernel)
  have hx : Candidate overlap 3 1 := (candidate 3 1).2 ⟨by simp [mem], by simp [mem], "x", 8,
    ⟨3, by decide +kernel⟩, ⟨1, by decide +kernel⟩⟩
  have hy : Candidate overlap 1 6 := (candidate 1 6).2 ⟨by simp [mem], by simp [mem], "y", 8,
    ⟨4, by decide +kernel⟩, ⟨6, by decide +kernel⟩⟩
  have hxy : EqvGen (Candidate overlap) 3 6 := .trans _ _ _ (.rel _ _ hx) (.rel _ _ hy)
  have h₃ : overlap.isLive 3 = true := by decide +kernel
  have h₆ : overlap.isLive 6 = true := by decide +kernel
  obtain ⟨n, hn⟩ := isLive_iff.1 (show overlap.isLive 8 = true by decide +kernel)
  obtain ⟨report, h, hrun, -, -, heq, halone, hfresh, -, -, horder⟩ := step_merges_closure hreach
  obtain ⟨t, c, r, hmerge, hr, -⟩ :=
    horder hphase overlap.candidates.2.reverse fun g => List.mem_reverse
  refine ⟨report, h, hrun, (heq 3 6 h₃ h₆).2 hxy, hfresh 3 6 h₃ h₆ (by decide) hxy,
    (halone 8 n hn fun q _ hq => ?_).1, t, c, r, hmerge, hr⟩
  -- The unified final node is not on the frontier.
  refine ((eq_of_eqvGen (f := (· = 8)) (fun p q hpq => ?_) hq).mp rfl)
  obtain ⟨hp, hq, -⟩ := (candidate p q).1 hpq
  have hne (q) (hq : q ∈ overlap.frontier) : q ≠ 8 := by
    rcases (mem q).1 hq with rfl | rfl | rfl <;> decide
  simp [hne p hp, hne q hq]

end StateMerging.Automaton
