import StateMerging.Proofs.Changes
import StateMerging.Proofs.PrefixTree

/-!
# No useless nodes and edges

An automaton is trim when every live node and every live edge lies on some path from the start node
to a final node (`IsTrim`).  The start node alone has no such path until a sentence is ingested, so
the invariant of the runs leaves it out: in a `Spanned` automaton every live node is reached from
the start node, and from every other live node a final node is reached.

* `IsQuotient.spanned`: a quotient has no nodes but images, and maps the paths along with them.
* `WellFormed.isLive_extend_cases`: the nodes that a walk adds lie on the path that it spells.
* `Coherent.spanned_performAll`: every run keeps the invariant.
* `isTrim_of_ingested`: a sentence that was ingested gives the start node its path too.
-/

namespace StateMerging.Automaton

variable {a b : Automaton} {h : NodeId → NodeId} {p q : NodeId} {w : List String} {s : String}

/-- Every live node and every live edge lies on a path from the start node to a final node. -/
structure IsTrim (a : Automaton) : Prop where
  /-- A path to a live node goes on to a final node. -/
  node : ∀ q, a.isLive q = true →
    ∃ v w, ∃ f ∈ a.finals, a.Path a.start v q ∧ a.Path q w f
  /-- A path to the source of a live edge goes on over the edge to a final node. -/
  edge : ∀ e x, a.edge? e = some x →
    ∃ v w, ∃ f ∈ a.finals, a.Path a.start v x.source ∧ a.Path x.target w f

/-- Some path from the node ends in a final node. -/
def ReachesFinal (a : Automaton) (q : NodeId) : Prop := ∃ w, ∃ f ∈ a.finals, a.Path q w f

/-- Every live node is reached from the start node, and every one but the start node itself reaches
a final node. -/
structure Spanned (a : Automaton) : Prop where
  reached : ∀ q, a.isLive q = true → ∃ w, a.Path a.start w q
  reaches : ∀ q, a.isLive q = true → q = a.start ∨ a.ReachesFinal q

theorem Spanned.isTrim (k : a.Spanned) (ha : a.WellFormed) (hw : a.Accepts w) : a.IsTrim := by
  have hstart : a.ReachesFinal a.start := ⟨w, hw⟩
  have hreaches (q) (hq : a.isLive q = true) : a.ReachesFinal q := by
    rcases k.reaches q hq with rfl | h
    · exact hstart
    · exact h
  refine ⟨fun q hq => ?_, fun e x hx => ?_⟩
  · obtain ⟨v, hv⟩ := k.reached q hq
    obtain ⟨w, f, hf, hw⟩ := hreaches q hq
    exact ⟨v, w, f, hf, hv, hw⟩
  · obtain ⟨v, hv⟩ := k.reached x.source (ha.source_live e x hx)
    obtain ⟨w, f, hf, hw⟩ := hreaches x.target (ha.target_live e x hx)
    exact ⟨v, w, f, hf, hv, hw⟩

/-! ## Merging -/

theorem IsQuotient.reachesFinal (k : IsQuotient h a b) (hq : a.ReachesFinal q) :
    b.ReachesFinal (h q) := by
  obtain ⟨w, f, hf, hpath⟩ := hq
  exact ⟨w, h f, (k.mem_finals _).2 ⟨f, hf, rfl⟩, k.path_map hpath⟩

theorem IsQuotient.spanned (k : IsQuotient h a b) (ha : a.Spanned) : b.Spanned where
  reached q hq := by
    obtain ⟨p, hp, rfl⟩ := (k.isLive_iff q).1 hq
    obtain ⟨w, hw⟩ := ha.reached p hp
    exact ⟨w, k.start_eq ▸ k.path_map hw⟩
  reaches q hq := by
    obtain ⟨p, hp, rfl⟩ := (k.isLive_iff q).1 hq
    rcases ha.reaches p hp with rfl | hreaches
    · exact Or.inl k.start_eq.symm
    · exact Or.inr (k.reachesFinal hreaches)

/-! ## Ingestion -/

theorem IsExtension.reachesFinal (k : IsExtension a b) (hq : a.ReachesFinal q) :
    b.ReachesFinal q := by
  obtain ⟨w, f, hf, hpath⟩ := hq
  exact ⟨w, f, k.finals f hf, k.path hpath⟩

/-- A node that the walk has added is passed by the walk. -/
theorem WellFormed.isLive_extend_cases (ha : a.WellFormed) (hq : a.isLive q = true)
    (hp : (a.extend q w).2.isLive p = true) :
    a.isLive p = true ∨
      ∃ u v, (a.extend q w).2.Path q u p ∧ (a.extend q w).2.Path p v (a.extend q w).1 := by
  induction w generalizing a q with
  | nil => exact Or.inl hp
  | cons t w ih =>
    cases hs : a.successor q t with
    | some r =>
      have harc := ha.arc_of_successor hs
      have hr := ha.isLive_target harc
      obtain ⟨-, hext, -, -⟩ := extend_spec ha hr w
      rw [extend_of_successor w hs] at hp ⊢
      rcases ih ha hr hp with hold | ⟨u, v, hu, hv⟩
      · exact Or.inl hold
      · exact Or.inr ⟨t :: u, v, Path.arc_cons (hext.arc harc) hu, hv⟩
    | none =>
      have hb := ha.grow (t := t) hq
      obtain ⟨-, hext, -, hpath⟩ := extend_spec hb isLive_grow_size w
      rw [extend_of_grow w hs] at hp ⊢
      have hfirst := hext.arc arc_grow_size
      rcases ih hb isLive_grow_size hp with hold | ⟨u, v, hu, hv⟩
      · rcases isLive_grow_iff.1 hold with rfl | hold
        · exact Or.inr ⟨[t], w, Path.arc_cons hfirst (.nil _), hpath⟩
        · exact Or.inl hold
      · exact Or.inr ⟨t :: u, v, Path.arc_cons hfirst hu, hv⟩

theorem WellFormed.spanned_ingestTokens (ha : a.WellFormed) (k : a.Spanned) (w : List String) :
    (a.ingestTokens w).Spanned := by
  obtain ⟨-, hext, haccepts⟩ := ingestTokens_spec ha w
  have hstart : (a.ingestTokens w).start = a.start := hext.start_eq
  have hend : (a.extend a.start w).1 ∈ (a.ingestTokens w).finals :=
    ha.mem_finals_ingestTokens_iff.2 (Or.inl rfl)
  -- A live node is an old one, or the walk has passed it.
  have hcases (p) (hp : (a.ingestTokens w).isLive p = true) : a.isLive p = true ∨
      ∃ u v, (a.ingestTokens w).Path a.start u p ∧
        (a.ingestTokens w).Path p v (a.extend a.start w).1 := by
    rw [Automaton.ingestTokens, isLive_markFinal] at hp
    rcases ha.isLive_extend_cases ha.start_live hp with hold | ⟨u, v, hu, hv⟩
    · exact Or.inl hold
    · exact Or.inr ⟨u, v, path_markFinal_iff.2 hu, path_markFinal_iff.2 hv⟩
  refine ⟨fun p hp => ?_, fun p hp => ?_⟩
  · rw [hstart]
    rcases hcases p hp with hold | ⟨u, v, hu, -⟩
    · obtain ⟨u, hu⟩ := k.reached p hold
      exact ⟨u, hext.path hu⟩
    · exact ⟨u, hu⟩
  · rw [hstart]
    rcases hcases p hp with hold | ⟨u, v, -, hv⟩
    · exact (k.reaches p hold).imp_right hext.reachesFinal
    · exact Or.inr ⟨v, _, hend, hv⟩

/-! ## Runs -/

theorem spanned_empty : empty.Spanned where
  reached := isTree_empty.reached
  reaches q hq := by
    obtain ⟨n, hn⟩ := isLive_iff.1 hq
    exact Or.inl (Nat.lt_one_iff.1 (Arena.lt_size_of_get? hn))

theorem Coherent.spanned_perform (ha : a.Coherent) (k : a.Spanned) (x : Action) :
    (a.perform x).Spanned := by
  cases x with
  | ingest s => exact ha.spanned_ingestTokens k (Text.tokens s)
  | step => exact ((merges_advance ha.toContract).isQuotient ha.toWellFormed).spanned k
  | settle bound => exact ((ha.merges_settle bound).isQuotient ha.toWellFormed).spanned k

theorem Coherent.spanned_performAll (ha : a.Coherent) (k : a.Spanned) (actions : List Action) :
    (a.performAll actions).Spanned := by
  induction actions generalizing a with
  | nil => exact k
  | cons x actions ih => exact ih (ha.perform x) (ha.spanned_perform k x)

/-- After every run that has ingested a sentence, each live node and each live edge lies on a path
from the start node to a final node. -/
theorem isTrim_of_ingested {actions : List Action} (hs : .ingest s ∈ actions) :
    (empty.performAll actions).IsTrim :=
  (coherent_empty.spanned_performAll spanned_empty actions).isTrim
    (coherent_performAll actions).toWellFormed (coherent_empty.accepts_of_mem hs)

/-- The sentences `a b`, `a b a b`, `c b d` after two steps, which make a cycle of the first two,
and then `a e b`, which leaves the cycle. -/
def regrown : Automaton := empty.performAll
  [.ingest "a b", .ingest "a b a b", .ingest "c b d", .settle 2, .ingest "a e b"]

theorem regrown_isTrim : regrown.edge? 1 = some ⟨9, "b", 8⟩ ∧ regrown.edge? 2 = some ⟨8, "a", 9⟩ ∧
    regrown.edge? 7 = some ⟨9, "e", 10⟩ ∧ regrown.IsTrim := by
  refine ⟨by decide +kernel, by decide +kernel, by decide +kernel, ?_⟩
  exact isTrim_of_ingested (s := "a e b") (by simp)

end StateMerging.Automaton
