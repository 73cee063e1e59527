import StateMerging.Proofs.Chains
import StateMerging.Proofs.Fusion
import Mathlib.Data.Setoid.Basic

/-!
# Merging several groups

A step merges its groups one after the other, and a member that was replaced meanwhile counts as its
replacement.  `Progress a b t` is the invariant of this: the merges that the tally `t` records have
led from `a` to `b`, which is the quotient of `a` along the roots of the redirections.

* `Progress.merge`: one more merge keeps the invariant.
* `mergeGroups_spec`: merging groups of live nodes succeeds, and two nodes come to the same root
  exactly when they are joined by the groups, however these overlap.
-/

namespace StateMerging.Automaton

variable {a b : Automaton} {t : Tally} {g : SortedSet NodeId} {gs : List (SortedSet NodeId)}
  {p q : NodeId}

/-- The merges recorded in a tally have led from the first automaton to the second, which has no
frontier meanwhile. -/
structure Progress (a b : Automaton) (t : Tally) : Prop where
  /-- The second automaton meets its contract, the frontier aside. -/
  wellFormed : b.WellFormed
  /-- Every node of the first automaton went to the end of its chain. -/
  quotient : IsQuotient t.redirections.root a b
  /-- No node is replaced on its own. -/
  moved_together : ∀ p, a.isLive p = true → t.redirections.root p ≠ p →
    ∃ q, q ≠ p ∧ a.isLive q = true ∧ t.redirections.root q = t.redirections.root p
  /-- Every chain of replacements ends. -/
  acyclic : t.redirections.Acyclic
  /-- Only retired nodes are replaced. -/
  retired : ∀ q r, t.redirections.next? q = some r → q < b.nodes.size ∧ b.isLive q = false
  frontier_eq : b.frontier = ∅
  phase_eq : b.phase = a.phase
  nextName_eq : b.nextName = a.nextName
  /-- Every merge takes at least one node away. -/
  size_add_merges : b.size + t.merges ≤ a.size
  /-- A nondeterministic node was so from the beginning, or when it was made. -/
  pending : ∀ q, b.isNondeterministic q = true →
    q ∈ t.unsettled ∨ a.isNondeterministic q = true
  /-- Nothing happens without a merge. -/
  unchanged : t.merges = 0 → b = { a with frontier := ∅ } ∧ t = {}

namespace Progress

theorem start (ha : a.WellFormed) : Progress a { a with frontier := ∅ } {} where
  wellFormed := ha.resume a.phase ∅
  quotient := by
    have : ({} : Tally).redirections.root = id := funext fun q => Redirections.root_empty q
    rw [this]
    exact (IsQuotient.refl a).resume a.phase ∅
  moved_together p _ hp := absurd (Redirections.root_empty p) hp
  acyclic := Redirections.acyclic_empty
  retired q r h := by simp at h
  frontier_eq := rfl
  phase_eq := rfl
  nextName_eq := rfl
  size_add_merges := Nat.le_refl _
  pending q hq := Or.inr hq
  unchanged _ := ⟨rfl, rfl⟩

theorem next?_of_isLive (k : Progress a b t) (hq : b.isLive q = true) :
    t.redirections.next? q = none := by
  cases h : t.redirections.next? q with
  | none => rfl
  | some r => simp [(k.retired q r h).2] at hq

theorem next?_of_le (k : Progress a b t) (hq : b.nodes.size ≤ q) :
    t.redirections.next? q = none := by
  cases h : t.redirections.next? q with
  | none => rfl
  | some r => exact absurd (k.retired q r h).1 (Nat.not_lt.2 hq)

theorem root_of_isLive (k : Progress a b t) (hq : b.isLive q = true) :
    t.redirections.root q = q :=
  Redirections.root_of_next?_eq_none (k.next?_of_isLive hq)

theorem isLive_root (k : Progress a b t) (hq : a.isLive q = true) :
    b.isLive (t.redirections.root q) = true :=
  (k.quotient.isLive_iff _).2 ⟨q, hq, rfl⟩

theorem isLive_of_mem_image (k : Progress a b t) (hg : ∀ q ∈ g, a.isLive q = true)
    (hq : q ∈ g.image t.redirections.root) : b.isLive q = true := by
  obtain ⟨p, hp, rfl⟩ := SortedSet.mem_image.1 hq
  exact k.isLive_root (hg p hp)

/-! ## One more merge -/

theorem next?_add (hg : ∀ q ∈ g, b.isLive q = true) (q : NodeId) :
    (Tally.add t (b.merged g) g b.nodes.size).redirections.next? q =
      if q ∈ g then some b.nodes.size else t.redirections.next? q := by
  have hm : b.nodes.size ∉ g.toList := size_not_mem hg
  exact Redirections.next?_redirectAll hm q

variable (k : Progress a b t) (hg : ∀ q ∈ g, b.isLive q = true)
include k hg

theorem root_add (q : NodeId) :
    (Tally.add t (b.merged g) g b.nodes.size).redirections.root q =
      b.freshen g (t.redirections.root q) := by
  have hm : b.nodes.size ∉ g.toList := size_not_mem hg
  exact k.acyclic.root_redirectAll g.nodup (fun x hx => k.next?_of_isLive (hg x hx))
    (k.next?_of_le (Nat.le_refl _)) hm q

theorem quotient_add (hne : ∃ q, q ∈ g) :
    IsQuotient (Tally.add t (b.merged g) g b.nodes.size).redirections.root a (b.merged g) := by
  rw [show (Tally.add t (b.merged g) g b.nodes.size).redirections.root =
    b.freshen g ∘ t.redirections.root from funext (k.root_add hg)]
  exact k.quotient.trans (k.wellFormed.isQuotient_merged hg hne)

theorem moved_together_add (htwo : 2 ≤ g.size) (hp : a.isLive p = true)
    (hne : (Tally.add t (b.merged g) g b.nodes.size).redirections.root p ≠ p) :
    ∃ q, q ≠ p ∧ a.isLive q = true ∧
      (Tally.add t (b.merged g) g b.nodes.size).redirections.root q =
        (Tally.add t (b.merged g) g b.nodes.size).redirections.root p := by
  rw [k.root_add hg] at hne ⊢
  simp only [k.root_add hg]
  by_cases hfix : t.redirections.root p = p
  · -- The node is a member of the group, and so is another node.
    rw [hfix] at hne ⊢
    have hpg : p ∈ g := by
      by_contra hpg
      exact hne (collapse_of_not_mem hpg)
    obtain ⟨r, hr, hrp⟩ := SortedSet.exists_ne_of_one_lt_size htwo p
    obtain ⟨q, hq, rfl⟩ := (k.quotient.isLive_iff r).1 (hg r hr)
    refine ⟨q, fun e => hrp (e ▸ hfix), hq, ?_⟩
    rw [freshen, collapse_of_mem hr, collapse_of_mem hpg]
  · obtain ⟨q, hqp, hq, hroot⟩ := k.moved_together p hp hfix
    exact ⟨q, hqp, hq, by rw [hroot]⟩

theorem retired_add {r : NodeId}
    (hq : (Tally.add t (b.merged g) g b.nodes.size).redirections.next? q = some r) :
    q < (b.merged g).nodes.size ∧ (b.merged g).isLive q = false := by
  have hold : q < b.nodes.size ∧ (b.isLive q = true → q ∈ g) := by
    rw [next?_add hg] at hq
    split at hq
    · rename_i hmem
      exact ⟨lt_size_of_isLive (hg q hmem), fun _ => hmem⟩
    · obtain ⟨hlt, hdead⟩ := k.retired q r hq
      exact ⟨hlt, fun h => by simp [hdead] at h⟩
  rw [nodes_size_merged, ← Bool.not_eq_true, isLive_merged_iff hg]
  refine ⟨Nat.lt_succ_of_lt hold.1, ?_⟩
  rintro (hfresh | ⟨hlive, hmem⟩)
  · exact Nat.ne_of_lt hold.1 hfresh
  · exact hmem (hold.2 hlive)

theorem pending_add (hne : ∃ q, q ∈ g) (hq : (b.merged g).isNondeterministic q = true) :
    q ∈ (Tally.add t (b.merged g) g b.nodes.size).unsettled ∨ a.isNondeterministic q = true := by
  -- The fresh node is noted when it is made; the merge spoils no other node.
  rcases k.wellFormed.isNondeterministic_merged hg hne hq with rfl | hold
  · exact Or.inl (by simp [Tally.add, hq])
  · refine (k.pending q hold).imp_left fun h => ?_
    rw [Tally.add]
    split
    · exact SortedSet.mem_insert.2 (Or.inr h)
    · exact h

theorem merge (htwo : 2 ≤ g.size) :
    Progress a (b.merged g) (Tally.add t (b.merged g) g b.nodes.size) := by
  obtain ⟨p, hp, -⟩ := SortedSet.one_lt_size_iff.1 htwo
  exact
    { wellFormed := k.wellFormed.merged hg ⟨p, hp⟩
      quotient := k.quotient_add hg ⟨p, hp⟩
      moved_together := fun _ hp => k.moved_together_add hg htwo hp
      acyclic := k.acyclic.redirectAll g.nodup (fun x hx => k.next?_of_isLive (hg x hx))
        (k.next?_of_le (Nat.le_refl _)) (size_not_mem hg)
      retired := fun _ _ => k.retired_add hg
      frontier_eq := k.frontier_eq
      phase_eq := k.phase_eq
      nextName_eq := k.nextName_eq
      size_add_merges := by
        have hlt : (b.merged g).size < b.size := k.wellFormed.size_merged_lt hg htwo
        have hle := k.size_add_merges
        rw [show (Tally.add t (b.merged g) g b.nodes.size).merges = t.merges + 1 from rfl]
        omega
      pending := fun _ => k.pending_add hg ⟨p, hp⟩
      unchanged := fun h => absurd h (Nat.succ_ne_zero _) }

end Progress

/-! ## All groups -/

/-- What a relation respects its closure respects. -/
theorem eq_of_eqvGen {β : Type*} {r : NodeId → NodeId → Prop} {f : NodeId → β}
    (hf : ∀ p q, r p q → f p = f q) (h : Relation.EqvGen r p q) : f p = f q :=
  @Setoid.eqvGen_le _ r (Setoid.ker f) hf p q h

theorem eqvGen_of_le {r r' : NodeId → NodeId → Prop}
    (hle : ∀ p q, r p q → Relation.EqvGen r' p q) (h : Relation.EqvGen r p q) :
    Relation.EqvGen r' p q :=
  @Setoid.eqvGen_le _ r (Relation.EqvGen.setoid r') hle p q h

/-- Two live nodes that stand for the same node already, or are in one of the groups to be
merged. -/
def Joined (a : Automaton) (t : Tally) (gs : List (SortedSet NodeId)) (p q : NodeId) : Prop :=
  a.isLive p = true ∧ a.isLive q = true ∧
    (t.redirections.root p = t.redirections.root q ∨ ∃ g ∈ gs, p ∈ g ∧ q ∈ g)

theorem eqvGen_joined_nil (hp : a.isLive p = true) (hq : a.isLive q = true) :
    Relation.EqvGen (Joined a t []) p q ↔ t.redirections.root p = t.redirections.root q := by
  constructor
  · refine eq_of_eqvGen fun p q h => ?_
    obtain ⟨-, -, h | ⟨g, hg, -⟩⟩ := h
    · exact h
    · cases hg
  · exact fun h => .rel _ _ ⟨hp, hq, Or.inl h⟩

/-- A tally that has identified the members of the first group, and nothing else in addition, joins
the same nodes by the other groups. -/
theorem eqvGen_joined_cons {t' : Tally} (hg : ∀ q ∈ g, a.isLive q = true)
    (hold : ∀ p q, t.redirections.root p = t.redirections.root q →
      t'.redirections.root p = t'.redirections.root q)
    (hnew : ∀ p ∈ g, ∀ q ∈ g, t'.redirections.root p = t'.redirections.root q)
    (honly : ∀ p q, a.isLive p = true → a.isLive q = true →
      t'.redirections.root p = t'.redirections.root q →
      t.redirections.root p = t.redirections.root q ∨
        ∃ p' ∈ g, ∃ q' ∈ g, t.redirections.root p = t.redirections.root p' ∧
          t.redirections.root q' = t.redirections.root q) :
    Relation.EqvGen (Joined a t' gs) p q ↔ Relation.EqvGen (Joined a t (g :: gs)) p q := by
  constructor
  · refine eqvGen_of_le fun p q h => ?_
    obtain ⟨hp, hq, h | ⟨g', hg', hpg, hqg⟩⟩ := h
    · rcases honly p q hp hq h with h | ⟨p', hp', q', hq', hpp, hqq⟩
      · exact .rel _ _ ⟨hp, hq, Or.inl h⟩
      · have h₁ : Joined a t (g :: gs) p p' := ⟨hp, hg p' hp', Or.inl hpp⟩
        have h₂ : Joined a t (g :: gs) p' q' :=
          ⟨hg p' hp', hg q' hq', Or.inr ⟨g, List.mem_cons_self, hp', hq'⟩⟩
        have h₃ : Joined a t (g :: gs) q' q := ⟨hg q' hq', hq, Or.inl hqq⟩
        exact .trans _ _ _ (.rel _ _ h₁) (.trans _ _ _ (.rel _ _ h₂) (.rel _ _ h₃))
    · exact .rel _ _ ⟨hp, hq, Or.inr ⟨g', List.mem_cons_of_mem _ hg', hpg, hqg⟩⟩
  · refine Relation.EqvGen.mono (fun p q h => ?_) p q
    obtain ⟨hp, hq, h | ⟨g', hg', hpg, hqg⟩⟩ := h
    · exact ⟨hp, hq, Or.inl (hold p q h)⟩
    · rcases List.mem_cons.1 hg' with rfl | hg'
      · exact ⟨hp, hq, Or.inl (hnew p hpg q hqg)⟩
      · exact ⟨hp, hq, Or.inr ⟨g', hg', hpg, hqg⟩⟩

/-- What a merge identifies in addition are the members of its group. -/
theorem eq_or_mem_of_collapse_eq {m : NodeId} (hp : p ≠ m) (hq : q ≠ m)
    (h : collapse g m p = collapse g m q) : p = q ∨ (p ∈ g ∧ q ∈ g) := by
  by_cases hpg : p ∈ g
  · rw [collapse_of_mem hpg] at h
    exact Or.inr ⟨hpg, (collapse_eq_fresh_iff hq).1 h.symm⟩
  · by_cases hqg : q ∈ g
    · rw [collapse_of_mem hqg] at h
      exact Or.inr ⟨(collapse_eq_fresh_iff hp).1 h, hqg⟩
    · rw [collapse_of_not_mem hpg, collapse_of_not_mem hqg] at h
      exact Or.inl h

/-- The merge of the nodes that stand for a group joins what the group joined. -/
theorem Progress.eqvGen_joined_merge (k : Progress a b t) (hg : ∀ q ∈ g, a.isLive q = true) :
    Relation.EqvGen (Joined a (Tally.add t (b.merged (g.image t.redirections.root))
      (g.image t.redirections.root) b.nodes.size) gs) p q ↔
        Relation.EqvGen (Joined a t (g :: gs)) p q := by
  have himage (p : NodeId) (hp : p ∈ g) : t.redirections.root p ∈ g.image t.redirections.root :=
    SortedSet.mem_image.2 ⟨p, hp, rfl⟩
  have hroot := k.root_add fun q => k.isLive_of_mem_image hg
  refine eqvGen_joined_cons hg (fun p q h => ?_) (fun p hp q hq => ?_) fun p q hp hq h => ?_
  · rw [hroot, hroot, h]
  · rw [hroot, hroot, freshen, collapse_of_mem (himage p hp), collapse_of_mem (himage q hq)]
  · rw [hroot, hroot] at h
    have hcases := eq_or_mem_of_collapse_eq (ne_size_of_isLive (k.isLive_root hp))
      (ne_size_of_isLive (k.isLive_root hq)) h
    refine hcases.imp_right ?_
    rintro ⟨hpg, hqg⟩
    obtain ⟨p', hp', hpp⟩ := SortedSet.mem_image.1 hpg
    obtain ⟨q', hq', hqq⟩ := SortedSet.mem_image.1 hqg
    exact ⟨p', hp', q', hq', hpp.symm, hqq⟩

theorem mergeGroups_cons_of_lt (hlt : (g.image t.redirections.root).size < 2) :
    b.mergeGroups t (g :: gs) = b.mergeGroups t gs := by
  rw [mergeGroups, if_pos hlt]

theorem Progress.mergeGroups_cons (k : Progress a b t) (hg : ∀ q ∈ g, a.isLive q = true)
    (htwo : 2 ≤ (g.image t.redirections.root).size) :
    b.mergeGroups t (g :: gs) = (b.merged (g.image t.redirections.root)).mergeGroups
      (Tally.add t (b.merged (g.image t.redirections.root)) (g.image t.redirections.root)
        b.nodes.size) gs := by
  have hlive : ∀ q ∈ g.image t.redirections.root, b.isLive q = true :=
    fun q => k.isLive_of_mem_image hg
  rw [mergeGroups, if_neg (Nat.not_lt.2 htwo), k.wellFormed.merge_eq hlive htwo]

/-- Merging groups of live nodes succeeds, and identifies the nodes that the groups join. -/
theorem mergeGroups_spec (k : Progress a b t) (hgs : ∀ g ∈ gs, ∀ q ∈ g, a.isLive q = true) :
    ∃ t' c, b.mergeGroups t gs = ⟨.ok t', c⟩ ∧ Progress a c t' ∧
      ∀ p q, a.isLive p = true → a.isLive q = true →
        (t'.redirections.root p = t'.redirections.root q ↔
          Relation.EqvGen (Joined a t gs) p q) := by
  induction gs generalizing b t with
  | nil => exact ⟨t, b, rfl, k, fun p q hp hq => (eqvGen_joined_nil hp hq).symm⟩
  | cons g gs ih =>
    have hg : ∀ q ∈ g, a.isLive q = true := hgs g List.mem_cons_self
    have hgs' : ∀ g ∈ gs, ∀ q ∈ g, a.isLive q = true :=
      fun g hg => hgs g (List.mem_cons_of_mem _ hg)
    rcases Nat.lt_or_ge (g.image t.redirections.root).size 2 with hlt | htwo
    · -- The members stand for one node already.
      obtain ⟨t', c, hrun, hc, hroot⟩ := ih k hgs'
      refine ⟨t', c, (mergeGroups_cons_of_lt hlt).trans hrun, hc, fun p q hp hq => ?_⟩
      rw [hroot p q hp hq]
      refine eqvGen_joined_cons hg (fun _ _ h => h) (fun p hp q hq => ?_)
        fun _ _ _ _ h => Or.inl h
      exact SortedSet.eq_of_size_lt_two hlt (SortedSet.mem_image.2 ⟨p, hp, rfl⟩)
        (SortedSet.mem_image.2 ⟨q, hq, rfl⟩)
    · obtain ⟨t', c, hrun, hc, hroot⟩ := ih (k.merge (fun q => k.isLive_of_mem_image hg) htwo) hgs'
      refine ⟨t', c, (k.mergeGroups_cons hg htwo).trans hrun, hc, fun p q hp hq => ?_⟩
      rw [hroot p q hp hq]
      exact k.eqvGen_joined_merge hg

end StateMerging.Automaton
