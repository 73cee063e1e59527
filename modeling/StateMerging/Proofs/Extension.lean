import StateMerging.Automaton.Ingest
import StateMerging.Proofs.Steps

/-!
# Ingestion extends an automaton

`IsExtension a b` says that `b` has every node, edge and final node of `a` under the same handle,
and that no further node is nondeterministic.  A token that cannot be followed adds a fresh node
with an edge to it (`Automaton.grow`), and the end of the sentence becomes final; both are
extensions that keep the contract.

* `extend_spec`: after the walk its tokens spell a path to the node that was reached.
* `ingestTokens_spec`: ingestion keeps the contract, extends the automaton, and afterwards the
  tokens are accepted.
-/

namespace StateMerging.Automaton

/-- The second automaton has everything that the first has, and no further nondeterminism. -/
structure IsExtension (a b : Automaton) : Prop where
  start_eq : b.start = a.start
  phase_eq : b.phase = a.phase
  frontier_eq : b.frontier = a.frontier
  isLive : ∀ q, a.isLive q = true → b.isLive q = true
  edge? : ∀ e x, a.edge? e = some x → b.edge? e = some x
  finals : ∀ q ∈ a.finals, q ∈ b.finals
  isNondeterministic : ∀ q, b.isNondeterministic q = true → a.isNondeterministic q = true

variable {a b c : Automaton} {p q r : NodeId} {l t : String} {w : List String}

namespace IsExtension

theorem refl (a : Automaton) : IsExtension a a :=
  ⟨rfl, rfl, rfl, fun _ h => h, fun _ _ h => h, fun _ h => h, fun _ h => h⟩

theorem trans (hab : IsExtension a b) (hbc : IsExtension b c) : IsExtension a c where
  start_eq := hbc.start_eq.trans hab.start_eq
  phase_eq := hbc.phase_eq.trans hab.phase_eq
  frontier_eq := hbc.frontier_eq.trans hab.frontier_eq
  isLive q h := hbc.isLive q (hab.isLive q h)
  edge? e x h := hbc.edge? e x (hab.edge? e x h)
  finals q h := hbc.finals q (hab.finals q h)
  isNondeterministic q h := hab.isNondeterministic q (hbc.isNondeterministic q h)

theorem arc (k : IsExtension a b) (h : a.Arc p l q) : b.Arc p l q :=
  h.imp fun e he => k.edge? e _ he

theorem path (k : IsExtension a b) (h : a.Path p w q) : b.Path p w q := by
  induction h with
  | nil q => exact .nil q
  | cons he _ ih => exact Path.arc_cons (k.arc (arc_of_edge? he)) ih

theorem accepts (k : IsExtension a b) (h : a.Accepts w) : b.Accepts w := by
  obtain ⟨q, hq, hpath⟩ := h
  refine ⟨q, k.finals q hq, ?_⟩
  rw [k.start_eq]
  exact k.path hpath

theorem contract (k : IsExtension a b) (ha : a.Contract) (hb : b.WellFormed) : b.Contract where
  toWellFormed := hb
  frontier_live q hq := by
    rw [k.frontier_eq] at hq
    exact k.isLive q (ha.frontier_live q hq)

theorem pending (k : IsExtension a b) (ha : a.Pending) : b.Pending := by
  intro q hq
  rw [k.phase_eq, k.frontier_eq]
  exact ha q (k.isNondeterministic q hq)

end IsExtension

/-! ## A fresh node and an edge to it -/

/-- The automaton with a fresh node that is reached from `q` by the token. -/
def grow (a : Automaton) (q : NodeId) (t : String) : Automaton :=
  a.addFreshNode.addEdge q t a.nodes.size

theorem extend_of_grow (w : List String) (h : a.successor q t = none) :
    a.extend q (t :: w) = (a.grow q t).extend a.nodes.size w := extend_of_no_successor w h

theorem edge?_grow (e : EdgeId) : (a.grow q t).edge? e =
    if e = a.edges.size then some ⟨q, t, a.nodes.size⟩ else a.edge? e :=
  edge?_addEdge a.addFreshNode q t a.nodes.size e

theorem node?_grow (p : NodeId) : (a.grow q t).node? p =
    (if p = a.nodes.size then some ⟨toString a.nextName, false, [], [], []⟩ else a.node? p).map
      (·.attach p a.edges.size ⟨q, t, a.nodes.size⟩) := by
  rw [grow, node?_addEdge]
  congr 1
  exact Arena.get?_insert ..

theorem isLive_grow_iff : (a.grow q t).isLive p = true ↔ p = a.nodes.size ∨ a.isLive p = true := by
  rw [isLive_iff, node?_grow, isLive_iff]
  by_cases hp : p = a.nodes.size <;> simp [hp]

theorem isLive_grow_size : (a.grow q t).isLive a.nodes.size = true := isLive_grow_iff.2 (Or.inl rfl)

theorem arc_grow_iff : (a.grow q t).Arc p l r ↔
    a.Arc p l r ∨ (p = q ∧ l = t ∧ r = a.nodes.size) := by
  have hnone : a.edge? a.edges.size = none := Arena.get?_eq_none_of_le (Nat.le_refl _)
  constructor
  · rintro ⟨e, he⟩
    rw [edge?_grow] at he
    split at he
    · simp only [Option.some.injEq, Edge.mk.injEq] at he
      obtain ⟨rfl, rfl, rfl⟩ := he
      exact Or.inr ⟨rfl, rfl, rfl⟩
    · exact Or.inl ⟨e, he⟩
  · rintro (⟨e, he⟩ | ⟨rfl, rfl, rfl⟩)
    · refine ⟨e, ?_⟩
      rw [edge?_grow, if_neg, he]
      rintro rfl
      simp [hnone] at he
    · exact ⟨a.edges.size, by rw [edge?_grow, if_pos rfl]⟩

theorem arc_grow_size : (a.grow q t).Arc q t a.nodes.size :=
  arc_grow_iff.2 (Or.inr ⟨rfl, rfl, rfl⟩)

/-- Filing the new edge in a view that it belongs to keeps the view exact. -/
theorem Lists.grow {es : List EdgeId} {kind : Edge → Bool} (h : a.Lists es kind) :
    (a.grow q t).Lists (if kind ⟨q, t, a.nodes.size⟩ = true then es ++ [a.edges.size] else es)
      kind := by
  have hnew : a.edges.size ∉ es := by
    intro hmem
    obtain ⟨x, hx, -⟩ := (h.mem_iff _).1 hmem
    exact absurd (Arena.lt_size_of_get? hx) (Nat.lt_irrefl _)
  refine ⟨?_, fun e => ?_⟩
  · split
    · refine List.nodup_append.2 ⟨h.nodup, List.nodup_singleton _, fun e he f hf => ?_⟩
      rw [List.mem_singleton.1 hf]
      rintro rfl
      exact hnew he
    · exact h.nodup
  · rw [edge?_grow]
    by_cases he : e = a.edges.size
    · subst he
      by_cases hk : kind ⟨q, t, a.nodes.size⟩ = true <;> simp [hk, hnew]
    · by_cases hk : kind ⟨q, t, a.nodes.size⟩ = true <;> simp [hk, he, h.mem_iff]

theorem Views.grow {n : Node} (h : a.Views p n) :
    (a.grow q t).Views p (n.attach p a.edges.size ⟨q, t, a.nodes.size⟩) where
  edges := h.edges.grow
  outgoing := by simpa [Node.attach] using h.outgoing.grow (q := q) (t := t)
  incoming := by simpa [Node.attach] using h.incoming.grow (q := q) (t := t)

/-- No edge touches a handle that was never issued. -/
theorem WellFormed.views_size (ha : a.WellFormed) (name : String) :
    a.Views a.nodes.size ⟨name, false, [], [], []⟩ := by
  have apart (e x) (hx : a.edge? e = some x) :
      x.source ≠ a.nodes.size ∧ x.target ≠ a.nodes.size :=
    ⟨ne_size_of_isLive (ha.source_live e x hx), ne_size_of_isLive (ha.target_live e x hx)⟩
  refine ⟨⟨List.nodup_nil, fun e => ?_⟩, ⟨List.nodup_nil, fun e => ?_⟩,
    ⟨List.nodup_nil, fun e => ?_⟩⟩
  · simp only [List.not_mem_nil, Edge.incidentTo_iff, false_iff]
    rintro ⟨x, hx, h | h⟩
    · exact (apart e x hx).1 h
    · exact (apart e x hx).2 h
  · simp only [List.not_mem_nil, decide_eq_true_eq, false_iff]
    rintro ⟨x, hx, h⟩
    exact (apart e x hx).1 h
  · simp only [List.not_mem_nil, decide_eq_true_eq, false_iff]
    rintro ⟨x, hx, h⟩
    exact (apart e x hx).2 h

theorem WellFormed.grow (ha : a.WellFormed) (hq : a.isLive q = true) : (a.grow q t).WellFormed := by
  have hlive (p) (hp : a.isLive p = true) : (a.grow q t).isLive p = true :=
    isLive_grow_iff.2 (Or.inr hp)
  refine wellFormed_of_views (hlive _ ha.start_live) (fun p => ?_) (fun e x hx => ?_)
    (fun p n hn => ?_) (fun e f x he hf => ?_)
  · rw [show (a.grow q t).finals = a.finals from rfl, node?_grow]
    by_cases hp : p = a.nodes.size
    · have hfin : p ∉ a.finals := fun h => ne_size_of_isLive (ha.isLive_of_mem_finals h) hp
      simp [hp ▸ hfin, hp]
    · simp [hp, ha.mem_finals]
  · rw [edge?_grow] at hx
    split at hx
    · cases hx
      exact ⟨hlive q hq, isLive_grow_size⟩
    · exact ⟨hlive _ (ha.source_live e x hx), hlive _ (ha.target_live e x hx)⟩
  · rw [node?_grow, Option.map_eq_some_iff] at hn
    obtain ⟨n, hn, rfl⟩ := hn
    split at hn
    · rename_i hp
      subst hp
      cases hn
      exact (ha.views_size _).grow
    · exact (ha.views hn).grow
  · -- The new edge reaches a node that no other edge reaches.
    have hold (e x) (hx : a.edge? e = some x) : x ≠ ⟨q, t, a.nodes.size⟩ := by
      rintro rfl
      exact ne_size_of_isLive (ha.target_live e _ hx) rfl
    rw [edge?_grow] at he hf
    split at he <;> split at hf
    · simp [*]
    · cases he
      exact absurd rfl (hold f _ hf)
    · cases hf
      exact absurd rfl (hold e _ he)
    · exact ha.edge_unique e f x he hf

theorem WellFormed.isExtension_grow (ha : a.WellFormed) (hq : a.isLive q = true)
    (hnone : a.successor q t = none) : IsExtension a (a.grow q t) where
  start_eq := rfl
  phase_eq := rfl
  frontier_eq := rfl
  isLive p hp := isLive_grow_iff.2 (Or.inr hp)
  edge? e x hx := by
    rw [edge?_grow, if_neg, hx]
    exact Nat.ne_of_lt (Arena.lt_size_of_get? hx)
  finals p hp := hp
  isNondeterministic p hp := by
    obtain ⟨l, r, s, hrs, hr, hs⟩ := (ha.grow hq).isNondeterministic_iff.1 hp
    have hfree := ha.successor_eq_none_iff.1 hnone
    rcases arc_grow_iff.1 hr with hr' | ⟨rfl, rfl, rfl⟩
    · rcases arc_grow_iff.1 hs with hs' | ⟨rfl, rfl, rfl⟩
      · exact ha.isNondeterministic_iff.2 ⟨l, r, s, hrs, hr', hs'⟩
      · exact absurd hr' (hfree r)
    · rcases arc_grow_iff.1 hs with hs' | ⟨-, -, rfl⟩
      · exact absurd hs' (hfree s)
      · exact absurd rfl hrs

/-! ## The end of a sentence -/

theorem isLive_markFinal (a : Automaton) (q p : NodeId) :
    (a.markFinal q).isLive p = a.isLive p := by
  rw [Bool.eq_iff_iff, isLive_iff, isLive_iff, node?_markFinal]
  split <;> simp

theorem markFinal_fields (a : Automaton) (q : NodeId) : (a.markFinal q).start = a.start ∧
    (a.markFinal q).phase = a.phase ∧ (a.markFinal q).frontier = a.frontier := by
  unfold markFinal
  split <;> exact ⟨rfl, rfl, rfl⟩

theorem edge?_markFinal (a : Automaton) (q : NodeId) (e : EdgeId) :
    (a.markFinal q).edge? e = a.edge? e := by
  unfold markFinal
  split <;> rfl

theorem WellFormed.markFinal (ha : a.WellFormed) (q : NodeId) : (a.markFinal q).WellFormed := by
  refine wellFormed_of_views ?_ (fun p => ?_) (fun e x hx => ?_) (fun p n hn => ?_)
    (fun e f x he hf => ?_)
  · rw [(a.markFinal_fields q).1, isLive_markFinal]
    exact ha.start_live
  · rw [mem_finals_markFinal, node?_markFinal, ha.mem_finals, isLive_iff]
    by_cases hp : q = p
    · subst hp
      simp only [true_and, if_true, Option.map_eq_some_iff]
      constructor
      · rintro (⟨n, hn⟩ | ⟨n, hn, -⟩) <;> exact ⟨_, ⟨n, hn, rfl⟩, rfl⟩
      · rintro ⟨_, ⟨n, hn, rfl⟩, -⟩
        exact Or.inl ⟨n, hn⟩
    · simp [hp, Ne.symm hp]
  · rw [edge?_markFinal] at hx
    rw [isLive_markFinal, isLive_markFinal]
    exact ⟨ha.source_live e x hx, ha.target_live e x hx⟩
  · have hviews (n) (hn : a.node? p = some n) : (a.markFinal q).Views p n := by
      have h := ha.views hn
      exact ⟨⟨h.edges.nodup, by simpa [edge?_markFinal] using h.edges.mem_iff⟩,
        ⟨h.outgoing.nodup, by simpa [edge?_markFinal] using h.outgoing.mem_iff⟩,
        ⟨h.incoming.nodup, by simpa [edge?_markFinal] using h.incoming.mem_iff⟩⟩
    rw [node?_markFinal] at hn
    split at hn
    · obtain ⟨m, hm, rfl⟩ := Option.map_eq_some_iff.1 hn
      exact ⟨(hviews m hm).edges, (hviews m hm).outgoing, (hviews m hm).incoming⟩
    · exact hviews n hn
  · rw [edge?_markFinal] at he hf
    exact ha.edge_unique e f x he hf

theorem WellFormed.isExtension_markFinal (ha : a.WellFormed) (q : NodeId) :
    IsExtension a (a.markFinal q) where
  start_eq := (a.markFinal_fields q).1
  phase_eq := (a.markFinal_fields q).2.1
  frontier_eq := (a.markFinal_fields q).2.2
  isLive p hp := by rwa [isLive_markFinal]
  edge? e x hx := by rwa [edge?_markFinal]
  finals p hp := (mem_finals_markFinal a q p).2 (Or.inr hp)
  isNondeterministic p hp := by
    rw [(ha.markFinal q).isNondeterministic_iff] at hp
    simp only [Arc, edge?_markFinal] at hp
    exact ha.isNondeterministic_iff.2 hp

/-! ## Sentences -/

/-- The walk of a list of tokens extends the automaton, and spells a path to the node reached. -/
theorem extend_spec (ha : a.WellFormed) (hq : a.isLive q = true) (w : List String) :
    (a.extend q w).2.WellFormed ∧ IsExtension a (a.extend q w).2 ∧
      (a.extend q w).2.isLive (a.extend q w).1 = true ∧
      (a.extend q w).2.Path q w (a.extend q w).1 := by
  induction w generalizing a q with
  | nil => exact ⟨ha, .refl a, hq, .nil q⟩
  | cons t w ih =>
    cases hs : a.successor q t with
    | some p =>
      have harc := ha.arc_of_successor hs
      rw [extend_of_successor w hs]
      obtain ⟨hwf, hext, hlive, hpath⟩ := ih ha (ha.isLive_target harc)
      exact ⟨hwf, hext, hlive, Path.arc_cons (hext.arc harc) hpath⟩
    | none =>
      rw [extend_of_grow w hs]
      obtain ⟨hwf, hext, hlive, hpath⟩ := ih (ha.grow hq) isLive_grow_size
      exact ⟨hwf, (ha.isExtension_grow hq hs).trans hext, hlive,
        Path.arc_cons (hext.arc arc_grow_size) hpath⟩

/-- Ingestion keeps the contract and extends the automaton by the tokens. -/
theorem ingestTokens_spec (ha : a.WellFormed) (w : List String) :
    (a.ingestTokens w).WellFormed ∧ IsExtension a (a.ingestTokens w) ∧
      (a.ingestTokens w).Accepts w := by
  obtain ⟨hwf, hext, hlive, hpath⟩ := extend_spec ha ha.start_live w
  have hmark := hwf.isExtension_markFinal (a.extend a.start w).1
  refine ⟨hwf.markFinal _, hext.trans hmark, (a.extend a.start w).1, ?_, ?_⟩
  · exact (mem_finals_markFinal ..).2 (Or.inl ⟨rfl, hlive⟩)
  · rw [show (a.ingestTokens w).start = a.start from (hext.trans hmark).start_eq]
    exact hmark.path hpath

end StateMerging.Automaton
