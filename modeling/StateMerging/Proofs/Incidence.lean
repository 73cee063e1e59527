import StateMerging.Automaton.Language
import StateMerging.Automaton.Step
import StateMerging.Proofs.Sizes
import Mathlib.Data.List.Nodup

/-!
# Reading edges off the views

In a well-formed automaton the views of the nodes say the same as the edges: each of them `Lists`
the live edges of one kind, and `wellFormed_of_views` puts the contract together from that.

`Automaton.Arc` is the relation of the live edges without their handles, and every question that is
answered through the views is characterised by it:

* `WellFormed.arc_of_successor` and `successor_eq_none_iff`: a successor is reached by an arc, and
  there is none only if there is no arc.
* `WellFormed.isNondeterministic_iff`: two edges with one label have distinct targets, because no
  two edges agree.
* `WellFormed.mem_predecessors`, `mem_collisions`, `mem_shared`: the predecessors of a node, and the
  groups that a step of generalization chooses.
* `WellFormed.follow_of_path`: in a deterministic automaton the walk along the first edges finds
  every path.
-/

namespace StateMerging.Automaton

/-! ## Views -/

/-- The list holds every live edge of one kind once, and nothing else. -/
structure Lists (a : Automaton) (es : List EdgeId) (kind : Edge → Bool) : Prop where
  nodup : es.Nodup
  mem_iff : ∀ e, e ∈ es ↔ ∃ x, a.edge? e = some x ∧ kind x = true

/-- The views of node `q` list exactly the edges that they are meant for. -/
structure Views (a : Automaton) (q : NodeId) (n : Node) : Prop where
  edges : a.Lists n.edges (·.incidentTo q)
  outgoing : a.Lists n.outgoing (·.source = q)
  incoming : a.Lists n.incoming (·.target = q)

theorem WellFormed.views {a : Automaton} (ha : a.WellFormed) {q : NodeId} {n : Node}
    (hq : a.node? q = some n) : a.Views q n where
  edges := ⟨ha.edges_nodup q n hq, ha.mem_edges q n hq⟩
  outgoing := ⟨ha.outgoing_nodup q n hq, fun e => by simp [ha.mem_outgoing q n hq e]⟩
  incoming := ⟨ha.incoming_nodup q n hq, fun e => by simp [ha.mem_incoming q n hq e]⟩

theorem wellFormed_of_views {a : Automaton} (hstart : a.isLive a.start = true)
    (hfinals : ∀ q, q ∈ a.finals ↔ ∃ n, a.node? q = some n ∧ n.accepting = true)
    (hlive : ∀ e x, a.edge? e = some x → a.isLive x.source = true ∧ a.isLive x.target = true)
    (hviews : ∀ q n, a.node? q = some n → a.Views q n)
    (hunique : ∀ e f x, a.edge? e = some x → a.edge? f = some x → e = f) : a.WellFormed where
  start_live := hstart
  mem_finals := hfinals
  source_live e x hx := (hlive e x hx).1
  target_live e x hx := (hlive e x hx).2
  edges_nodup q n hq := (hviews q n hq).edges.nodup
  mem_edges q n hq := (hviews q n hq).edges.mem_iff
  outgoing_nodup q n hq := (hviews q n hq).outgoing.nodup
  mem_outgoing q n hq e := by simp [(hviews q n hq).outgoing.mem_iff e]
  incoming_nodup q n hq := (hviews q n hq).incoming.nodup
  mem_incoming q n hq e := by simp [(hviews q n hq).incoming.mem_iff e]
  edge_unique := hunique

/-- Frontier and phase are no part of the structure. -/
theorem WellFormed.resume {a : Automaton} (ha : a.WellFormed) (phase : Phase)
    (frontier : SortedSet NodeId) :
    { a with phase := phase, frontier := frontier }.WellFormed :=
  { ha with }

/-! ## Arcs -/

/-- Some live edge leads from one node to another and carries the label. -/
def Arc (a : Automaton) (p : NodeId) (l : String) (q : NodeId) : Prop :=
  ∃ e, a.edge? e = some ⟨p, l, q⟩

theorem arc_of_edge? {a : Automaton} {e : EdgeId} {x : Edge} (h : a.edge? e = some x) :
    a.Arc x.source x.label x.target := ⟨e, h⟩

theorem Path.arc_cons {a : Automaton} {p q r : NodeId} {l : String} {w : List String}
    (h : a.Arc p l q) (k : a.Path q w r) : a.Path p (l :: w) r := by
  obtain ⟨e, he⟩ := h
  exact .cons he k

namespace WellFormed

variable {a : Automaton} {p q t : NodeId} {n : Node} {l : String}

theorem isLive_source (ha : a.WellFormed) (h : a.Arc p l q) : a.isLive p = true := by
  obtain ⟨e, he⟩ := h
  exact ha.source_live e _ he

theorem isLive_target (ha : a.WellFormed) (h : a.Arc p l q) : a.isLive q = true := by
  obtain ⟨e, he⟩ := h
  exact ha.target_live e _ he

theorem isLive_of_mem_finals (ha : a.WellFormed) (h : q ∈ a.finals) : a.isLive q = true := by
  obtain ⟨n, hn, -⟩ := (ha.mem_finals q).1 h
  exact isLive_iff.2 ⟨n, hn⟩

/-! ## Edges at a node -/

theorem mem_outEdges (ha : a.WellFormed) (hq : a.node? q = some n) {x : Edge} :
    x ∈ n.outEdges a.edges ↔ a.Arc q x.label x.target ∧ x.source = q := by
  rw [Node.mem_outEdges]
  constructor
  · rintro ⟨e, hmem, hx⟩
    obtain ⟨y, hy, hs⟩ := (ha.mem_outgoing q n hq e).1 hmem
    obtain rfl : x = y := Option.some.inj (hx.symm.trans hy)
    exact ⟨hs ▸ arc_of_edge? hx, hs⟩
  · rintro ⟨⟨e, he⟩, rfl⟩
    exact ⟨e, (ha.mem_outgoing _ n hq e).2 ⟨x, he, rfl⟩, he⟩

theorem mem_inEdges (ha : a.WellFormed) (hq : a.node? q = some n) {x : Edge} :
    x ∈ n.inEdges a.edges ↔ a.Arc x.source x.label q ∧ x.target = q := by
  rw [Node.mem_inEdges]
  constructor
  · rintro ⟨e, hmem, hx⟩
    obtain ⟨y, hy, ht⟩ := (ha.mem_incoming q n hq e).1 hmem
    obtain rfl : x = y := Option.some.inj (hx.symm.trans hy)
    exact ⟨ht ▸ arc_of_edge? hx, ht⟩
  · rintro ⟨⟨e, he⟩, rfl⟩
    exact ⟨e, (ha.mem_incoming _ n hq e).2 ⟨x, he, rfl⟩, he⟩

theorem exists_outEdge (ha : a.WellFormed) (hq : a.node? q = some n) :
    (∃ x ∈ n.outEdges a.edges, x.label = l ∧ x.target = t) ↔ a.Arc q l t := by
  constructor
  · rintro ⟨x, hx, rfl, rfl⟩
    exact ((ha.mem_outEdges hq).1 hx).1
  · intro h
    exact ⟨⟨q, l, t⟩, (ha.mem_outEdges hq).2 ⟨h, rfl⟩, rfl, rfl⟩

theorem nodup_outEdges (ha : a.WellFormed) (hq : a.node? q = some n) :
    (n.outEdges a.edges).Nodup :=
  List.Nodup.filterMap (fun e f x he hf => ha.edge_unique e f x he hf) (ha.outgoing_nodup q n hq)

/-! ## Successors -/

theorem arc_of_successor (ha : a.WellFormed) (h : a.successor q l = some t) : a.Arc q l t := by
  rw [successor, Option.bind_eq_some_iff] at h
  obtain ⟨n, hn, hs⟩ := h
  rw [Node.successor, Option.map_eq_some_iff] at hs
  obtain ⟨x, hx, rfl⟩ := hs
  have hl : x.label = l := by simpa using List.find?_some hx
  exact (ha.exists_outEdge hn).1 ⟨x, List.mem_of_find?_eq_some hx, hl, rfl⟩

theorem successor_eq_none_iff (ha : a.WellFormed) :
    a.successor q l = none ↔ ∀ t, ¬ a.Arc q l t := by
  cases hq : a.node? q with
  | none =>
    refine ⟨fun _ t h => ?_, fun _ => by rw [successor, hq]; rfl⟩
    obtain ⟨n, hn⟩ := isLive_iff.1 (ha.isLive_source h)
    simp [hq] at hn
  | some n =>
    rw [successor, hq, Option.bind_some, Node.successor, Option.map_eq_none_iff,
      List.find?_eq_none]
    constructor
    · intro h t ht
      obtain ⟨x, hx, hl, -⟩ := (ha.exists_outEdge hq).2 ht
      exact h x hx (by simpa using hl)
    · intro h x hx hl
      have hl : x.label = l := by simpa using hl
      exact h x.target ((ha.exists_outEdge hq).1 ⟨x, hx, hl, rfl⟩)

/-! ## Nondeterminism -/

/-- Two edges that leave a node with one label are told apart by their targets. -/
theorem isNondeterministic_iff (ha : a.WellFormed) :
    a.isNondeterministic q = true ↔ ∃ l t u, t ≠ u ∧ a.Arc q l t ∧ a.Arc q l u := by
  constructor
  · intro h
    obtain ⟨n, hn, h⟩ := (Option.any_eq_true _ _).1 h
    rw [Node.isNondeterministic_iff, List.nodup_map_iff_inj_on (ha.nodup_outEdges hn)] at h
    push Not at h
    obtain ⟨x, hx, y, hy, hl, hne⟩ := h
    obtain ⟨hax, hxs⟩ := (ha.mem_outEdges hn).1 hx
    obtain ⟨hay, hys⟩ := (ha.mem_outEdges hn).1 hy
    refine ⟨x.label, x.target, y.target, fun ht => hne ?_, hax, hl ▸ hay⟩
    cases x
    cases y
    simp_all
  · rintro ⟨l, t, u, hne, ht, hu⟩
    obtain ⟨n, hn⟩ := isLive_iff.1 (ha.isLive_source ht)
    have hx := (ha.mem_outEdges hn (x := ⟨q, l, t⟩)).2 ⟨ht, rfl⟩
    have hy := (ha.mem_outEdges hn (x := ⟨q, l, u⟩)).2 ⟨hu, rfl⟩
    rw [isNondeterministic, hn, Option.any_some, Node.isNondeterministic_iff]
    intro hnd
    have := List.inj_on_of_nodup_map hnd hx hy rfl
    exact hne (by simpa using this)

theorem isLive_of_isNondeterministic (ha : a.WellFormed) (h : a.isNondeterministic q = true) :
    a.isLive q = true := by
  obtain ⟨l, t, u, -, ht, -⟩ := ha.isNondeterministic_iff.1 h
  exact ha.isLive_source ht

theorem successor_of_arc (ha : a.WellFormed) (hd : a.isNondeterministic q = false)
    (h : a.Arc q l t) : a.successor q l = some t := by
  cases hs : a.successor q l with
  | none => exact absurd h (ha.successor_eq_none_iff.1 hs t)
  | some u =>
    by_contra hne
    have hut : t ≠ u := fun e => hne (by rw [e])
    have := ha.isNondeterministic_iff.2 ⟨l, t, u, hut, h, ha.arc_of_successor hs⟩
    simp [hd] at this

theorem follow_of_path (ha : a.WellFormed) (hd : a.isDeterministic = true) {w : List String}
    (h : a.Path q w p) : a.follow q w = some p := by
  induction h with
  | nil => rfl
  | @cons e x w p he _ ih =>
    rw [follow, ha.successor_of_arc (isDeterministic_iff.1 hd x.source) (arc_of_edge? he)]
    exact ih

/-! ## The groups that a step looks at -/

theorem mem_predecessors (ha : a.WellFormed) (hq : a.isLive q = true) :
    p ∈ a.predecessors q ↔ p ≠ q ∧ ∃ l, a.Arc p l q := by
  obtain ⟨n, hn⟩ := isLive_iff.1 hq
  rw [predecessors, hn, Option.map_some, Option.getD_some, Node.mem_predecessors, and_comm]
  refine and_congr_right fun _ => ⟨?_, ?_⟩
  · rintro ⟨x, hx, rfl⟩
    exact ⟨x.label, ((ha.mem_inEdges hn).1 hx).1⟩
  · rintro ⟨l, h⟩
    exact ⟨⟨p, l, q⟩, (ha.mem_inEdges hn).2 ⟨h, rfl⟩, rfl⟩

/-- The targets that a live node reaches with one label. -/
theorem exists_targets (ha : a.WellFormed) (hq : a.isLive q = true) (l : String) :
    ∃ g : SortedSet NodeId, ∀ t, t ∈ g ↔ a.Arc q l t := by
  obtain ⟨n, hn⟩ := isLive_iff.1 hq
  refine ⟨.ofList (((n.outEdges a.edges).filter (·.label = l)).map (·.target)), fun t => ?_⟩
  simp only [SortedSet.mem_ofList, List.mem_map, List.mem_filter, decide_eq_true_eq,
    ← ha.exists_outEdge hn, and_assoc]

theorem mem_collisions (ha : a.WellFormed) {g : SortedSet NodeId} :
    g ∈ a.collisions q ↔ 1 < g.size ∧ ∃ l, ∀ t, t ∈ g ↔ a.Arc q l t := by
  cases hq : a.node? q with
  | none =>
    simp only [collisions, hq, Option.map_none, Option.getD_none, List.not_mem_nil, false_iff]
    rintro ⟨hg, l, h⟩
    obtain ⟨t, ht, -⟩ := SortedSet.one_lt_size_iff.1 hg
    obtain ⟨n, hn⟩ := isLive_iff.1 (ha.isLive_source ((h t).1 ht))
    simp [hq] at hn
  | some n =>
    simp only [collisions, hq, Option.map_some, Option.getD_some, List.mem_filter, List.mem_map,
      Prod.exists, exists_eq_right, Node.mem_labelTargets, ha.exists_outEdge hq, decide_eq_true_eq]
    constructor
    · rintro ⟨⟨l, -, h⟩, hg⟩
      exact ⟨hg, l, h⟩
    · rintro ⟨hg, l, h⟩
      obtain ⟨t, ht, -⟩ := SortedSet.one_lt_size_iff.1 hg
      exact ⟨⟨l, ⟨t, (h t).1 ht⟩, h⟩, hg⟩

theorem mem_shared (ha : a.WellFormed) {g : SortedSet NodeId} :
    g ∈ a.shared ↔ (∃ q, q ∈ g) ∧ ∃ l t, ∀ q, q ∈ g ↔ q ∈ a.frontier ∧ a.Arc q l t := by
  have filed (x : Adjacency) (q : NodeId) :
      (x, q) ∈ a.frontier.toList.flatMap (fun q =>
        ((a.node? q).map fun n => (n.adjacencies a.edges).map (·, q)).getD []) ↔
        q ∈ a.frontier ∧ a.Arc q x.label x.target := by
    rw [List.mem_flatMap]
    constructor
    · rintro ⟨p, hp, hm⟩
      cases hn : a.node? p with
      | none => simp [hn] at hm
      | some n =>
        simp only [hn, Option.map_some, Option.getD_some, List.mem_map, Prod.mk.injEq,
          Node.adjacencies] at hm
        obtain ⟨_, ⟨y, hy, rfl⟩, rfl, rfl⟩ := hm
        exact ⟨hp, ((ha.mem_outEdges hn).1 hy).1⟩
    · rintro ⟨hf, harc⟩
      obtain ⟨n, hn⟩ := isLive_iff.1 (ha.isLive_source harc)
      have hx := (ha.mem_outEdges hn (x := ⟨q, x.label, x.target⟩)).2 ⟨harc, rfl⟩
      refine ⟨q, hf, ?_⟩
      rw [hn, Option.map_some, Option.getD_some]
      exact List.mem_map.2 ⟨x, List.mem_map.2 ⟨_, hx, rfl⟩, rfl⟩
  simp only [shared, List.mem_map, Prod.exists, exists_eq_right, mem_groups, filed]
  constructor
  · rintro ⟨x, ⟨q, hq⟩, h⟩
    exact ⟨⟨q, (h q).2 hq⟩, x.label, x.target, h⟩
  · rintro ⟨⟨q, hq⟩, l, t, h⟩
    exact ⟨⟨l, t⟩, ⟨q, (h q).1 hq⟩, h⟩

theorem collisions_eq_nil_iff (ha : a.WellFormed) :
    a.collisions q = [] ↔ a.isNondeterministic q = false := by
  rw [List.eq_nil_iff_forall_not_mem, ← Bool.not_eq_true, ← not_exists]
  refine not_congr ⟨?_, ?_⟩
  · rintro ⟨g, hg⟩
    obtain ⟨hs, l, h⟩ := ha.mem_collisions.1 hg
    obtain ⟨t, ht, u, hu, hne⟩ := SortedSet.one_lt_size_iff.1 hs
    exact ha.isNondeterministic_iff.2 ⟨l, t, u, hne, (h t).1 ht, (h u).1 hu⟩
  · intro h
    obtain ⟨l, t, u, hne, ht, hu⟩ := ha.isNondeterministic_iff.1 h
    obtain ⟨g, hg⟩ := ha.exists_targets (ha.isLive_source ht) l
    exact ⟨g, ha.mem_collisions.2
      ⟨SortedSet.one_lt_size_iff.2 ⟨t, (hg t).2 ht, u, (hg u).2 hu, hne⟩, l, hg⟩⟩

end WellFormed

end StateMerging.Automaton
