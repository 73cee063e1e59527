import StateMerging.Proofs.Determinism

/-!
# Three readings of a branching label

A frontier is filled with the nodes that have two edges of one label, and a repair looks for a label
that has two targets.  Where two edges could agree in label and target, a node would have the one
and not the other, and wait on the frontier for good.  In a well-formed automaton no two edges
agree, and the tests do:

* `WellFormed.mem_labelTargets`: the table of a node has a row for each label that it has an arc
  with, and the row holds the targets of these arcs.
* `WellFormed.isNondeterministic_iff_labelTargets` and `isNondeterministic_iff_outEdges`: the two
  tests, by the table and by the edges.
* `WellFormed.isDeterministic_iff_edges`: determinism, said by the edges alone and without a view.
-/

namespace StateMerging.Automaton

variable {a : Automaton} {q : NodeId} {n : Node} {l : String}

namespace WellFormed

theorem mem_labelTargets (ha : a.WellFormed) (hq : a.node? q = some n) {ts : SortedSet NodeId} :
    (l, ts) ∈ n.labelTargets a.edges ↔ (∃ t, a.Arc q l t) ∧ ∀ t, t ∈ ts ↔ a.Arc q l t := by
  simp only [Node.mem_labelTargets, ha.exists_outEdge hq]

/-- The labels in the table are the ones that can be followed. -/
theorem exists_mem_labelTargets_iff (ha : a.WellFormed) (hq : a.node? q = some n) :
    (∃ ts, (l, ts) ∈ n.labelTargets a.edges) ↔ ∃ t, a.Arc q l t := by
  constructor
  · rintro ⟨ts, hts⟩
    exact ((ha.mem_labelTargets hq).1 hts).1
  · intro harc
    obtain ⟨ts, hts⟩ := ha.exists_targets (isLive_iff.2 ⟨n, hq⟩) l
    exact ⟨ts, (ha.mem_labelTargets hq).2 ⟨harc, hts⟩⟩

theorem isSome_successor_iff (ha : a.WellFormed) :
    (a.successor q l).isSome = true ↔ ∃ t, a.Arc q l t := by
  rw [Option.isSome_iff_ne_none, ne_eq, ha.successor_eq_none_iff]
  push Not
  rfl

/-! ## Nondeterminism -/

theorem isNondeterministic_iff_labelTargets (ha : a.WellFormed) (hq : a.node? q = some n) :
    a.isNondeterministic q = true ↔ ∃ l ts, (l, ts) ∈ n.labelTargets a.edges ∧ 2 ≤ ts.size := by
  rw [ha.isNondeterministic_iff]
  constructor
  · rintro ⟨l, t, u, hne, ht, hu⟩
    obtain ⟨ts, hts⟩ := (ha.exists_mem_labelTargets_iff hq).2 ⟨t, ht⟩
    have hmem := ((ha.mem_labelTargets hq).1 hts).2
    exact ⟨l, ts, hts, SortedSet.one_lt_size_iff.2 ⟨t, (hmem t).2 ht, u, (hmem u).2 hu, hne⟩⟩
  · rintro ⟨l, ts, hts, htwo⟩
    have hmem := ((ha.mem_labelTargets hq).1 hts).2
    obtain ⟨t, ht, u, hu, hne⟩ := SortedSet.one_lt_size_iff.1 htwo
    exact ⟨l, t, u, hne, (hmem t).1 ht, (hmem u).1 hu⟩

theorem isNondeterministic_iff_outEdges (ha : a.WellFormed) (hq : a.node? q = some n) :
    a.isNondeterministic q = true ↔
      ∃ x ∈ n.outEdges a.edges, ∃ y ∈ n.outEdges a.edges, x ≠ y ∧ x.label = y.label := by
  rw [isNondeterministic, hq, Option.any_some, Node.isNondeterministic_iff,
    List.nodup_map_iff_inj_on (ha.nodup_outEdges hq)]
  push Not
  exact exists_congr fun x => and_congr_right fun _ => exists_congr fun y =>
    and_congr_right fun _ => and_comm

theorem isDeterministic_iff_edges (ha : a.WellFormed) :
    a.isDeterministic = true ↔ ∀ e f x y, a.edge? e = some x → a.edge? f = some y →
      x.source = y.source → x.label = y.label → e = f := by
  rw [isDeterministic_iff]
  constructor
  · intro hd e f x y he hf hsource hlabel
    by_contra hne
    have hn := ha.isNondeterministic_of_edges hne he hf hsource hlabel
    rw [hd x.source] at hn
    cases hn
  · intro hunique q
    rw [← Bool.not_eq_true, ha.isNondeterministic_iff]
    rintro ⟨l, t, u, hne, ⟨e, he⟩, ⟨f, hf⟩⟩
    -- The edges to the two targets are one edge, and so are the targets.
    obtain rfl := hunique e f _ _ he hf rfl rfl
    rw [he] at hf
    simp only [Option.some.injEq, Edge.mk.injEq] at hf
    exact hne hf.2.2

end WellFormed

/-- After every run, for every live node: it counts as nondeterministic exactly when some label in
its table has two targets, and exactly when two of the edges that leave it carry one label.  A label
can be followed exactly when it is in the table, and then to one of its targets.  The automaton
counts as deterministic exactly when no two edges have the same source and label. -/
theorem branching_tests_agree (ha : a.Reachable) :
    (∀ q n, a.node? q = some n →
      (a.isNondeterministic q = true ↔
        ∃ l ts, (l, ts) ∈ n.labelTargets a.edges ∧ 2 ≤ ts.size) ∧
      (∃ es, a.edgesFrom q = some es ∧ es.Nodup ∧
        (a.isNondeterministic q = true ↔ ∃ x ∈ es, ∃ y ∈ es, x ≠ y ∧ x.label = y.label)) ∧
      ∀ l, ((a.successor q l).isSome = true ↔ ∃ ts, (l, ts) ∈ n.labelTargets a.edges) ∧
        ∀ t ts, a.successor q l = some t → (l, ts) ∈ n.labelTargets a.edges → t ∈ ts) ∧
    (a.isDeterministic = true ↔ ∀ p l e f x y, a.edge? e = some x → a.edge? f = some y →
      x.source = p → x.label = l → y.source = p → y.label = l → e = f) := by
  have hwf := ha.coherent.toWellFormed
  refine ⟨fun q n hq => ⟨hwf.isNondeterministic_iff_labelTargets hq, ?_, fun l => ⟨?_, ?_⟩⟩, ?_⟩
  · exact ⟨n.outEdges a.edges, by rw [edgesFrom, hq, Option.map_some], hwf.nodup_outEdges hq,
      hwf.isNondeterministic_iff_outEdges hq⟩
  · rw [hwf.isSome_successor_iff, hwf.exists_mem_labelTargets_iff hq]
  · intro t ts hs hts
    exact (((hwf.mem_labelTargets hq).1 hts).2 t).2 (hwf.arc_of_successor hs)
  · rw [hwf.isDeterministic_iff_edges]
    constructor
    · rintro hunique _ _ e f x y he hf rfl rfl hsource hlabel
      exact hunique e f x y he hf hsource.symm hlabel.symm
    · intro hunique e f x y he hf hsource hlabel
      exact hunique x.source x.label e f x y he hf rfl rfl hsource.symm hlabel.symm

/-- In `clash` the node 6 has two edges with the label `c`, to itself and to the node 4. -/
theorem clash_tests_agree :
    (∃ n, clash.node? 6 = some n ∧ ∃ l ts, (l, ts) ∈ n.labelTargets clash.edges ∧ 2 ≤ ts.size) ∧
      (∃ es, clash.edgesFrom 6 = some es ∧ ∃ x ∈ es, ∃ y ∈ es, x ≠ y ∧ x.label = y.label) ∧
      clash.successor 6 "c" = some 6 ∧
      (∀ n ts, clash.node? 6 = some n → ("c", ts) ∈ n.labelTargets clash.edges → 6 ∈ ts) ∧
      ¬ ∀ p l e f x y, clash.edge? e = some x → clash.edge? f = some y →
        x.source = p → x.label = l → y.source = p → y.label = l → e = f := by
  have hd : clash.isDeterministic = false := by decide +kernel
  have hn : clash.isNondeterministic 6 = true := by decide +kernel
  have hs : clash.successor 6 "c" = some 6 := by decide +kernel
  obtain ⟨hnodes, hedges⟩ := branching_tests_agree (a := clash) ⟨_, rfl⟩
  obtain ⟨n, hq⟩ := isLive_iff.1 (show clash.isLive 6 = true by decide +kernel)
  obtain ⟨htable, ⟨es, hes, -, hpair⟩, -⟩ := hnodes 6 n hq
  refine ⟨⟨n, hq, htable.1 hn⟩, ⟨es, hes, hpair.1 hn⟩, hs, fun n ts hq hts => ?_, ?_⟩
  · exact ((hnodes 6 n hq).2.2 "c").2 6 ts hs hts
  · rw [← hedges, hd]
    simp

end StateMerging.Automaton
