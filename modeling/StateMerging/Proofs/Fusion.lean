import StateMerging.Proofs.Checker
import StateMerging.Proofs.Quotient
import Mathlib.Data.List.TakeWhile

/-!
# Merging a group of live nodes

In a well-formed automaton the merge of a group of live nodes is the quotient along the map that
sends the members to a fresh node.  An edge `Survives` a map when no edge of a lower handle has the
same image, and the edges of `Automaton.merged` are the images of the surviving ones.

* `edge?_merged`, `node?_merged_fresh`, `node?_merged_eq`: what becomes of the edges, of the members
  and of every other node.
* `WellFormed.merged` and `WellFormed.isQuotient_merged`: the merge keeps the contract and is a
  quotient.
* `WellFormed.size_merged_lt`, `WellFormed.isNondeterministic_merged`: nodes are taken away, and
  only the fresh one can become nondeterministic.
* `WellFormed.merge_eq`: none of the faults that a merge looks for arises.
-/

namespace StateMerging

/-! ## Filing several edges -/

theorem Node.foldl_attach (n : Node) (m : NodeId) (l : List (EdgeId × Edge)) :
    l.foldl (fun n p => n.attach m p.1 p.2) n =
      { n with
        edges := n.edges ++ (l.filter (·.2.incidentTo m)).map (·.1)
        outgoing := n.outgoing ++ (l.filter (·.2.source = m)).map (·.1)
        incoming := n.incoming ++ (l.filter (·.2.target = m)).map (·.1) } := by
  induction l generalizing n with
  | nil => simp
  | cons p l ih =>
    rw [List.foldl_cons, ih]
    by_cases hs : p.2.source = m <;> by_cases ht : p.2.target = m <;>
      simp [Node.attach, Edge.incidentTo, hs, ht]

namespace Automaton

variable {a : Automaton} {group : SortedSet NodeId} {p q m : NodeId} {e f : EdgeId} {x y : Edge}

/-! ## The map of the merge -/

/-- The map of the merge of a group into a fresh node. -/
abbrev freshen (a : Automaton) (group : SortedSet NodeId) : NodeId → NodeId :=
  collapse group a.nodes.size

/-- Whether an endpoint of the edge is in the group. -/
def Meets (x : Edge) (group : SortedSet NodeId) : Prop := x.source ∈ group ∨ x.target ∈ group

/-- No edge of a lower handle has the same image. -/
def Survives (a : Automaton) (h : NodeId → NodeId) (e : EdgeId) (x : Edge) : Prop :=
  ∀ f y, a.edge? f = some y → y.map h = x.map h → e ≤ f

/-- Below every edge there is one with the same image that survives. -/
theorem exists_survives (a : Automaton) (h : NodeId → NodeId) (hx : a.edge? e = some x) :
    ∃ f ≤ e, ∃ y, a.edge? f = some y ∧ y.map h = x.map h ∧ a.Survives h f y := by
  induction e using Nat.strongRecOn generalizing x with
  | ind e ih =>
    by_cases hs : a.Survives h e x
    · exact ⟨e, Nat.le_refl e, x, hx, rfl, hs⟩
    · simp only [Survives] at hs
      push Not at hs
      obtain ⟨f, y, hf, hy, hlt⟩ := hs
      obtain ⟨i, hi, z, hz, hzy, hsz⟩ := ih f hlt hf
      exact ⟨i, hi.trans (Nat.le_of_lt hlt), z, hz, hzy.trans hy, hsz⟩

theorem collapse_eq_iff (hq : q ∉ group) (hm : q ≠ m) : collapse group m p = q ↔ p = q := by
  by_cases hp : p ∈ group
  · rw [collapse_of_mem hp]
    refine ⟨fun e => absurd e.symm hm, ?_⟩
    rintro rfl
    exact absurd hp hq
  · rw [collapse_of_not_mem hp]

theorem collapse_eq_fresh_iff (hp : p ≠ m) : collapse group m p = m ↔ p ∈ group := by
  refine ⟨fun e => ?_, collapse_of_mem⟩
  by_contra hmem
  rw [collapse_of_not_mem hmem] at e
  exact hp e

theorem map_collapse_of_not_meets (h : ¬ Meets x group) : x.map (collapse group m) = x := by
  obtain ⟨hs, ht⟩ := not_or.1 h
  rw [Edge.map, collapse_of_not_mem hs, collapse_of_not_mem ht]

theorem ne_size_of_isLive (hq : a.isLive q = true) : q ≠ a.nodes.size :=
  Nat.ne_of_lt (lt_size_of_isLive hq)

theorem find?_not_isLive (hg : ∀ q ∈ group, a.isLive q = true) :
    (group.toList.find? fun q => !a.isLive q) = none := by
  rw [List.find?_eq_none]
  intro q hq
  simp [hg q hq]

namespace WellFormed

/-- The moved edges are the ones whose image touches the fresh node. -/
theorem incidentTo_map_freshen (ha : a.WellFormed) (he : a.edge? e = some x) :
    (x.map (a.freshen group)).incidentTo a.nodes.size = true ↔ Meets x group := by
  rw [Edge.incidentTo_iff]
  exact or_congr (collapse_eq_fresh_iff (ne_size_of_isLive (ha.source_live e x he)))
    (collapse_eq_fresh_iff (ne_size_of_isLive (ha.target_live e x he)))

theorem meets_of_map_eq (ha : a.WellFormed) (he : a.edge? e = some x) (hf : a.edge? f = some y)
    (h : x.map (a.freshen group) = y.map (a.freshen group)) (hx : Meets x group) :
    Meets y group := by
  rw [← ha.incidentTo_map_freshen hf, ← h]
  exact (ha.incidentTo_map_freshen he).2 hx

/-- An edge that does not meet the group is the only one with its image. -/
theorem survives_of_not_meets (ha : a.WellFormed) (he : a.edge? e = some x)
    (hx : ¬ Meets x group) : a.Survives (a.freshen group) e x := by
  intro f y hf hy
  have hmy : ¬ Meets y group := fun h => hx (ha.meets_of_map_eq hf he hy h)
  rw [map_collapse_of_not_meets hx, map_collapse_of_not_meets hmy] at hy
  exact Nat.le_of_eq (ha.edge_unique e f x he (hy ▸ hf))

/-! ## The edges at the members -/

theorem mem_touched (ha : a.WellFormed) (hg : ∀ q ∈ group, a.isLive q = true) :
    e ∈ a.touched group ↔ ∃ x, a.edge? e = some x ∧ Meets x group := by
  simp only [touched, members, SortedSet.mem_ofList, List.mem_flatMap, List.mem_filterMap,
    SortedSet.mem_toList]
  constructor
  · rintro ⟨n, ⟨q, hq, hn⟩, he⟩
    obtain ⟨x, hx, hi⟩ := (ha.mem_edges q n hn e).1 he
    refine ⟨x, hx, ?_⟩
    rcases Edge.incidentTo_iff.1 hi with rfl | rfl
    · exact Or.inl hq
    · exact Or.inr hq
  · rintro ⟨x, hx, hs | ht⟩
    · obtain ⟨n, hn⟩ := isLive_iff.1 (hg _ hs)
      exact ⟨n, ⟨_, hs, hn⟩, (ha.mem_edges _ n hn e).2 ⟨x, hx, by simp⟩⟩
    · obtain ⟨n, hn⟩ := isLive_iff.1 (hg _ ht)
      exact ⟨n, ⟨_, ht, hn⟩, (ha.mem_edges _ n hn e).2 ⟨x, hx, by simp⟩⟩

theorem isLive_of_mem_touched (ha : a.WellFormed) (hg : ∀ q ∈ group, a.isLive q = true)
    (he : e ∈ a.touched group) : a.edges.isLive e = true := by
  obtain ⟨x, hx, -⟩ := (ha.mem_touched hg).1 he
  exact Arena.isLive_iff.2 ⟨x, hx⟩

theorem moved_eq (ha : a.WellFormed) (hg : ∀ q ∈ group, a.isLive q = true) :
    a.moved group = (a.touched group).toList.filterMap fun e => (a.edge? e).map (e, ·) := by
  rw [moved, List.takeWhile_eq_self_iff.2 fun e he => ha.isLive_of_mem_touched hg he]

theorem mem_moved (ha : a.WellFormed) (hg : ∀ q ∈ group, a.isLive q = true) :
    (e, x) ∈ a.moved group ↔ a.edge? e = some x ∧ Meets x group := by
  simp only [ha.moved_eq hg, List.mem_filterMap, SortedSet.mem_toList, ha.mem_touched hg,
    Option.map_eq_some_iff, Prod.mk.injEq]
  constructor
  · rintro ⟨e, ⟨y, hy, hm⟩, x, hx, rfl, rfl⟩
    obtain rfl : y = x := Option.some.inj (hy.symm.trans hx)
    exact ⟨hx, hm⟩
  · rintro ⟨hx, hm⟩
    exact ⟨e, ⟨x, hx, hm⟩, x, hx, rfl, rfl⟩

theorem pairwise_moved (ha : a.WellFormed) (hg : ∀ q ∈ group, a.isLive q = true) :
    (a.moved group).Pairwise (fun p r => p.1 < r.1) := by
  rw [ha.moved_eq hg]
  refine List.pairwise_filterMap.2 ((a.touched group).ascending.imp ?_)
  intro e f hef x hx y hy
  obtain ⟨_, _, rfl⟩ := Option.map_eq_some_iff.1 hx
  obtain ⟨_, _, rfl⟩ := Option.map_eq_some_iff.1 hy
  exact Nat.compare_eq_lt.1 hef

theorem mem_images (ha : a.WellFormed) (hg : ∀ q ∈ group, a.isLive q = true) :
    (e, y) ∈ a.images group a.nodes.size ↔
      ∃ x, a.edge? e = some x ∧ Meets x group ∧ x.map (a.freshen group) = y := by
  simp only [images, List.mem_map, Prod.exists, Prod.mk.injEq, ha.mem_moved hg]
  constructor
  · rintro ⟨e, x, ⟨hx, hm⟩, rfl, rfl⟩
    exact ⟨x, hx, hm, rfl⟩
  · rintro ⟨x, hx, hm, rfl⟩
    exact ⟨e, x, ⟨hx, hm⟩, rfl, rfl⟩

theorem any_images_iff (ha : a.WellFormed) (hg : ∀ q ∈ group, a.isLive q = true)
    (he : a.edge? e = some x) :
    (a.images group a.nodes.size).any (·.1 = e) = true ↔ Meets x group := by
  simp only [List.any_eq_true, decide_eq_true_eq, Prod.exists]
  constructor
  · rintro ⟨e, y, hmem, rfl⟩
    obtain ⟨z, hz, hm, -⟩ := (ha.mem_images hg).1 hmem
    exact Option.some.inj (hz.symm.trans he) ▸ hm
  · intro hm
    exact ⟨e, _, (ha.mem_images hg).2 ⟨x, he, hm, rfl⟩, rfl⟩

theorem isFirst_images_iff (ha : a.WellFormed) (hg : ∀ q ∈ group, a.isLive q = true)
    (he : a.edge? e = some x) (hx : Meets x group) :
    isFirst (a.images group a.nodes.size) e (x.map (a.freshen group)) = true ↔
      a.Survives (a.freshen group) e x := by
  rw [isFirst_iff]
  constructor
  · intro h f y hf hy
    exact h f ((ha.mem_images hg).2 ⟨y, hf, ha.meets_of_map_eq he hf hy.symm hx, hy⟩)
  · intro h f hmem
    obtain ⟨y, hf, -, hy⟩ := (ha.mem_images hg).1 hmem
    exact h f y hf hy

end WellFormed

/-! ## The merged automaton -/

/-- The automaton in which a fresh node has replaced a group. -/
def merged (a : Automaton) (group : SortedSet NodeId) : Automaton :=
  (a.rewire group).retire group a.nodes.size

@[simp] theorem nodes_size_merged : (a.merged group).nodes.size = a.nodes.size + 1 := by
  simp [merged, retire, rewire]

@[simp] theorem frontier_merged : (a.merged group).frontier = a.frontier := rfl

@[simp] theorem phase_merged : (a.merged group).phase = a.phase := rfl

@[simp] theorem nextName_merged : (a.merged group).nextName = a.nextName := rfl

theorem mem_finals_merged : q ∈ (a.merged group).finals ↔
    (q ∈ a.finals ∧ q ∉ group) ∨ (q = a.nodes.size ∧ ∃ p ∈ a.finals, p ∈ group) := by
  have hany : (a.finals.toList.any fun p => decide (p ∈ group)) = true ↔
      ∃ p ∈ a.finals, p ∈ group := by simp [SortedSet.mem_toList]
  simp only [merged, retire, rewire]
  split
  · rename_i h
    simp only [SortedSet.mem_insert, SortedSet.mem_filter, decide_eq_true_eq, hany.1 h, and_true]
    exact or_comm
  · rename_i h
    have hnone : ¬ ∃ p ∈ a.finals, p ∈ group := fun h' => h (hany.2 h')
    simp only [SortedSet.mem_filter, decide_eq_true_eq, hnone, and_false, or_false]

theorem node?_merged_of_mem (hq : q ∈ group) : (a.merged group).node? q = none := by
  rw [merged, node?_retire, if_pos hq]

theorem node?_merged_fresh (hm : a.nodes.size ∉ group) :
    (a.merged group).node? a.nodes.size = some (a.replacement group a.nodes.size) := by
  rw [merged, node?_retire, if_neg hm, node?_rewire_size]

theorem node?_merged_of_not_mem (hq : q ∉ group) (hm : q ≠ a.nodes.size) :
    (a.merged group).node? q = (a.node? q).map fun n =>
      n.without (((a.discarded group a.nodes.size).filter (·.2.incidentTo q)).map (·.1)) := by
  rw [merged, node?_retire, if_neg hq, node?_rewire_of_not_mem hq hm]

theorem size_not_mem (hg : ∀ q ∈ group, a.isLive q = true) : a.nodes.size ∉ group :=
  fun h => ne_size_of_isLive (hg _ h) rfl

theorem isLive_merged_iff (hg : ∀ q ∈ group, a.isLive q = true) :
    (a.merged group).isLive q = true ↔ q = a.nodes.size ∨ (a.isLive q = true ∧ q ∉ group) := by
  by_cases hm : q = a.nodes.size
  · subst hm
    simp [isLive_iff, node?_merged_fresh (size_not_mem hg)]
  · by_cases hq : q ∈ group
    · simp [isLive_iff, node?_merged_of_mem hq, hm, hq]
    · simp [isLive_iff, node?_merged_of_not_mem hq hm, hm, hq]

/-- The edges that the fresh node lists, in ascending order. -/
def keptEdges (a : Automaton) (group : SortedSet NodeId) : List (EdgeId × Edge) :=
  (a.images group a.nodes.size).filter fun p => isFirst (a.images group a.nodes.size) p.1 p.2

/-- The edges that node `q` forgets. -/
def forgotten (a : Automaton) (group : SortedSet NodeId) (q : NodeId) : List EdgeId :=
  ((a.discarded group a.nodes.size).filter (·.2.incidentTo q)).map (·.1)

theorem replacement_eq (a : Automaton) (group : SortedSet NodeId) :
    a.replacement group a.nodes.size =
      { name := ",".intercalate ((a.members group).map (·.name))
        accepting := (a.members group).any (·.accepting)
        edges := ((a.keptEdges group).filter (·.2.incidentTo a.nodes.size)).map (·.1)
        outgoing := ((a.keptEdges group).filter (·.2.source = a.nodes.size)).map (·.1)
        incoming := ((a.keptEdges group).filter (·.2.target = a.nodes.size)).map (·.1) } :=
  Node.foldl_attach _ _ _

namespace WellFormed

/-- The edges of the merged automaton are the images of the surviving edges. -/
theorem edge?_merged (ha : a.WellFormed) (hg : ∀ q ∈ group, a.isLive q = true) :
    (a.merged group).edge? e = some y ↔
      ∃ x, a.edge? e = some x ∧ a.Survives (a.freshen group) e x ∧ x.map (a.freshen group) = y := by
  rw [show (a.merged group).edge? e = (a.rewire group).edge? e from rfl, edge?_rewire,
    Option.bind_eq_some_iff]
  refine exists_congr fun x => and_congr_right fun hx => ?_
  by_cases hm : Meets x group
  · rw [if_pos ((ha.any_images_iff hg hx).2 hm)]
    by_cases hs : a.Survives (a.freshen group) e x
    · rw [if_pos ((ha.isFirst_images_iff hg hx hm).2 hs)]
      simp [hs]
    · rw [if_neg ((ha.isFirst_images_iff hg hx hm).not.2 hs)]
      simp [hs]
  · rw [if_neg ((ha.any_images_iff hg hx).not.2 hm), map_collapse_of_not_meets hm]
    simp [ha.survives_of_not_meets hx hm]

theorem isQuotient_merged (ha : a.WellFormed) (hg : ∀ q ∈ group, a.isLive q = true)
    (hne : ∃ q, q ∈ group) : IsQuotient (a.freshen group) a (a.merged group) where
  isLive_iff q := by
    rw [isLive_merged_iff hg]
    constructor
    · rintro (rfl | ⟨hq, hmem⟩)
      · obtain ⟨p, hp⟩ := hne
        exact ⟨p, hg p hp, collapse_of_mem hp⟩
      · exact ⟨q, hq, collapse_of_not_mem hmem⟩
    · rintro ⟨p, hp, rfl⟩
      by_cases hmem : p ∈ group
      · exact Or.inl (collapse_of_mem hmem)
      · rw [freshen, collapse_of_not_mem hmem]
        exact Or.inr ⟨hp, hmem⟩
  fixed_or_fresh p := by
    by_cases hmem : p ∈ group
    · exact Or.inr (Nat.le_of_eq (collapse_of_mem hmem).symm)
    · exact Or.inl (collapse_of_not_mem hmem)
  node_kept p n hn hp := by
    have hm : p ≠ a.nodes.size := ne_size_of_isLive (isLive_iff.2 ⟨n, hn⟩)
    have hmem : p ∉ group := fun h => hm (hp.symm.trans (collapse_of_mem h))
    refine ⟨n.without (a.forgotten group p), ?_, rfl, rfl⟩
    rw [node?_merged_of_not_mem hmem hm, hn]
    rfl
  nodes_size_le := by simp
  start_eq := rfl
  mem_finals q := by
    rw [mem_finals_merged]
    constructor
    · rintro (⟨hq, hmem⟩ | ⟨rfl, p, hp, hmem⟩)
      · exact ⟨q, hq, collapse_of_not_mem hmem⟩
      · exact ⟨p, hp, collapse_of_mem hmem⟩
    · rintro ⟨p, hp, rfl⟩
      by_cases hmem : p ∈ group
      · exact Or.inr ⟨collapse_of_mem hmem, p, hp, hmem⟩
      · rw [freshen, collapse_of_not_mem hmem]
        exact Or.inl ⟨hp, hmem⟩
  edge_of e y hy := by
    obtain ⟨x, hx, -, hxy⟩ := (ha.edge?_merged hg).1 hy
    exact ⟨x, hx, hxy⟩
  edge_kept e x hx := by
    obtain ⟨f, hf, y, hy, hyx, hs⟩ := exists_survives a (a.freshen group) hx
    exact ⟨f, hf, (ha.edge?_merged hg).2 ⟨y, hy, hs, hyx⟩⟩

/-! ## The views after the merge -/

theorem mem_keptEdges (ha : a.WellFormed) (hg : ∀ q ∈ group, a.isLive q = true) :
    (e, y) ∈ a.keptEdges group ↔
      (a.merged group).edge? e = some y ∧ y.incidentTo a.nodes.size = true := by
  rw [keptEdges, List.mem_filter, ha.mem_images hg, ha.edge?_merged hg]
  constructor
  · rintro ⟨⟨x, hx, hm, rfl⟩, hfirst⟩
    exact ⟨⟨x, hx, (ha.isFirst_images_iff hg hx hm).1 hfirst, rfl⟩,
      (ha.incidentTo_map_freshen hx).2 hm⟩
  · rintro ⟨⟨x, hx, hs, rfl⟩, hi⟩
    have hm : Meets x group := (ha.incidentTo_map_freshen hx).1 hi
    exact ⟨⟨x, hx, hm, rfl⟩, (ha.isFirst_images_iff hg hx hm).2 hs⟩

theorem lists_keptEdges (ha : a.WellFormed) (hg : ∀ q ∈ group, a.isLive q = true)
    {kind : Edge → Bool} (hk : ∀ y, kind y = true → y.incidentTo a.nodes.size = true) :
    (a.merged group).Lists (((a.keptEdges group).filter fun p => kind p.2).map (·.1)) kind where
  nodup := by
    have himages : (a.images group a.nodes.size).Pairwise (fun p r => p.1 < r.1) :=
      List.pairwise_map.2 (ha.pairwise_moved hg)
    exact List.pairwise_map.2 (((himages.filter _).filter _).imp fun h => Nat.ne_of_lt h)
  mem_iff e := by
    simp only [List.mem_map, List.mem_filter, Prod.exists, ha.mem_keptEdges hg]
    constructor
    · rintro ⟨e, y, ⟨⟨hy, -⟩, hkind⟩, rfl⟩
      exact ⟨y, hy, hkind⟩
    · rintro ⟨y, hy, hkind⟩
      exact ⟨e, y, ⟨⟨hy, hk y hkind⟩, hkind⟩, rfl⟩

theorem views_merged_fresh (ha : a.WellFormed) (hg : ∀ q ∈ group, a.isLive q = true) :
    (a.merged group).Views a.nodes.size (a.replacement group a.nodes.size) := by
  rw [replacement_eq]
  have hs (y : Edge) (h : decide (y.source = a.nodes.size) = true) :
      y.incidentTo a.nodes.size = true := by simp_all
  have ht (y : Edge) (h : decide (y.target = a.nodes.size) = true) :
      y.incidentTo a.nodes.size = true := by simp_all
  exact ⟨ha.lists_keptEdges hg fun y h => h, ha.lists_keptEdges hg hs, ha.lists_keptEdges hg ht⟩

theorem mem_forgotten (ha : a.WellFormed) (hg : ∀ q ∈ group, a.isLive q = true)
    (he : a.edge? e = some x) :
    e ∈ a.forgotten group q ↔
      x.incidentTo q = true ∧ ¬ a.Survives (a.freshen group) e x := by
  simp only [forgotten, discarded, List.mem_map, List.mem_filter, Prod.exists, ha.mem_moved hg,
    Bool.not_eq_true']
  constructor
  · rintro ⟨e, y, ⟨⟨⟨hy, hm⟩, hfirst⟩, hi⟩, rfl⟩
    obtain rfl : y = x := Option.some.inj (hy.symm.trans he)
    refine ⟨hi, fun hs => ?_⟩
    rw [(ha.isFirst_images_iff hg hy hm).2 hs] at hfirst
    cases hfirst
  · rintro ⟨hi, hs⟩
    have hm : Meets x group := by
      by_contra hm
      exact hs (ha.survives_of_not_meets he hm)
    refine ⟨e, x, ⟨⟨⟨he, hm⟩, ?_⟩, hi⟩, rfl⟩
    rw [← Bool.not_eq_true, ha.isFirst_images_iff hg he hm]
    exact hs

/-- A view of a node outside the group loses the discarded edges, if the merge does not change
which edges the view is meant for. -/
theorem lists_without (ha : a.WellFormed) (hg : ∀ q ∈ group, a.isLive q = true) {es : List EdgeId}
    {kind : Edge → Bool} (hes : a.Lists es kind) (hk : ∀ x, kind x = true → x.incidentTo q = true)
    (hmap : ∀ x, kind (x.map (a.freshen group)) = kind x) :
    (a.merged group).Lists (es.filter (· ∉ a.forgotten group q)) kind where
  nodup := hes.nodup.filter _
  mem_iff e := by
    rw [List.mem_filter, hes.mem_iff, decide_eq_true_eq]
    constructor
    · rintro ⟨⟨x, hx, hkind⟩, hkept⟩
      rw [ha.mem_forgotten hg hx] at hkept
      refine ⟨_, (ha.edge?_merged hg).2 ⟨x, hx, ?_, rfl⟩, (hmap x).trans hkind⟩
      by_contra hs
      exact hkept ⟨hk x hkind, hs⟩
    · rintro ⟨y, hy, hkind⟩
      obtain ⟨x, hx, hs, rfl⟩ := (ha.edge?_merged hg).1 hy
      rw [ha.mem_forgotten hg hx]
      exact ⟨⟨x, hx, (hmap x).symm.trans hkind⟩, fun h => h.2 hs⟩

theorem views_merged_of_not_mem (ha : a.WellFormed) (hg : ∀ q ∈ group, a.isLive q = true)
    {n : Node} (hn : a.node? q = some n) (hq : q ∉ group) :
    (a.merged group).Views q (n.without (a.forgotten group q)) := by
  have hm : q ≠ a.nodes.size := ne_size_of_isLive (isLive_iff.2 ⟨n, hn⟩)
  have hs (x : Edge) : (x.map (a.freshen group)).source = q ↔ x.source = q := collapse_eq_iff hq hm
  have ht (x : Edge) : (x.map (a.freshen group)).target = q ↔ x.target = q := collapse_eq_iff hq hm
  have hv := ha.views hn
  refine ⟨ha.lists_without hg hv.edges (fun x h => h) fun x => ?_,
    ha.lists_without hg hv.outgoing (fun x h => ?_) fun x => ?_,
    ha.lists_without hg hv.incoming (fun x h => ?_) fun x => ?_⟩
  · rw [Bool.eq_iff_iff, Edge.incidentTo_iff, Edge.incidentTo_iff, hs, ht]
  · simp_all
  · simp only [hs]
  · simp_all
  · simp only [ht]

/-! ## The contract after the merge -/

theorem accepting_replacement (ha : a.WellFormed) :
    (a.replacement group a.nodes.size).accepting = true ↔ ∃ p ∈ a.finals, p ∈ group := by
  simp only [replacement_eq, members, List.any_eq_true, List.mem_filterMap, SortedSet.mem_toList,
    ha.mem_finals]
  constructor
  · rintro ⟨n, ⟨p, hp, hn⟩, hacc⟩
    exact ⟨p, ⟨n, hn, hacc⟩, hp⟩
  · rintro ⟨p, ⟨n, hn, hacc⟩, hp⟩
    exact ⟨n, ⟨p, hp, hn⟩, hacc⟩

theorem merged (ha : a.WellFormed) (hg : ∀ q ∈ group, a.isLive q = true)
    (hne : ∃ q, q ∈ group) : (a.merged group).WellFormed := by
  have hquot := ha.isQuotient_merged hg hne
  refine wellFormed_of_views ?_ (fun q => ?_) (fun e y hy => ?_) (fun q n hn => ?_)
    (fun e f y he hf => ?_)
  · exact (hquot.isLive_iff _).2 ⟨a.start, ha.start_live, rfl⟩
  · rw [mem_finals_merged]
    by_cases hm : q = a.nodes.size
    · subst hm
      have hfin : a.nodes.size ∉ a.finals := fun h =>
        ne_size_of_isLive (ha.isLive_of_mem_finals h) rfl
      rw [← ha.accepting_replacement, node?_merged_fresh (size_not_mem hg)]
      simp [hfin]
    · by_cases hq : q ∈ group
      · simp [node?_merged_of_mem hq, hq, hm]
      · simp [node?_merged_of_not_mem hq hm, hq, hm, ha.mem_finals, Node.without]
  · obtain ⟨x, hx, -, rfl⟩ := (ha.edge?_merged hg).1 hy
    exact ⟨(hquot.isLive_iff _).2 ⟨_, ha.source_live e x hx, rfl⟩,
      (hquot.isLive_iff _).2 ⟨_, ha.target_live e x hx, rfl⟩⟩
  · by_cases hm : q = a.nodes.size
    · subst hm
      rw [node?_merged_fresh (size_not_mem hg), Option.some.injEq] at hn
      exact hn ▸ ha.views_merged_fresh hg
    · by_cases hq : q ∈ group
      · simp [node?_merged_of_mem hq] at hn
      · rw [node?_merged_of_not_mem hq hm, Option.map_eq_some_iff] at hn
        obtain ⟨n, hn, rfl⟩ := hn
        exact ha.views_merged_of_not_mem hg hn hq
  · obtain ⟨x, hx, hsx, rfl⟩ := (ha.edge?_merged hg).1 he
    obtain ⟨z, hz, hsz, hzx⟩ := (ha.edge?_merged hg).1 hf
    exact Nat.le_antisymm (hsx f z hz hzx) (hsz e x hx hzx.symm)

/-! ## What the merge gains -/

/-- At least two nodes give way to one. -/
theorem size_merged_lt (ha : a.WellFormed) (hg : ∀ q ∈ group, a.isLive q = true)
    (htwo : 2 ≤ group.size) : (a.merged group).size < a.size := by
  obtain ⟨p, hp, q, hq, hpq⟩ := SortedSet.one_lt_size_iff.1 htwo
  have hsame : a.freshen group p = a.freshen group q := by
    rw [freshen, collapse_of_mem hp, collapse_of_mem hq]
  exact (ha.isQuotient_merged hg ⟨p, hp⟩).size_lt (hg p hp) (hg q hq) hpq hsame

/-- The merge makes no node nondeterministic but the fresh one. -/
theorem isNondeterministic_merged (ha : a.WellFormed) (hg : ∀ q ∈ group, a.isLive q = true)
    (hne : ∃ q, q ∈ group) (hq : (a.merged group).isNondeterministic q = true) :
    q = a.nodes.size ∨ a.isNondeterministic q = true := by
  have hwf := ha.merged hg hne
  rcases (isLive_merged_iff hg).1 (hwf.isLive_of_isNondeterministic hq) with h | ⟨hlive, -⟩
  · exact Or.inl h
  · have hlt : q < a.nodes.size := lt_size_of_isLive hlive
    exact Or.inr ((ha.isQuotient_merged hg hne).isNondeterministic_of_lt ha hwf hlt hq)

/-! ## No fault arises -/

theorem missingFault?_eq_none (ha : a.WellFormed) (hg : ∀ q ∈ group, a.isLive q = true) :
    a.missingFault? group = none := by
  rw [missingFault?, Option.map_eq_none_iff, List.find?_eq_none]
  intro e he
  simp [ha.isLive_of_mem_touched hg he]

theorem mergeFault?_eq_none (ha : a.WellFormed) (hm : a.isLive m = true)
    (hg : ∀ q ∈ group, a.isLive q = false) : a.mergeFault? group m = none := by
  obtain ⟨n, hn⟩ := isLive_iff.1 hm
  have outside (q : NodeId) (hq : a.isLive q = true) : q ∉ group := fun h => by simp [hg q h] at hq
  rw [mergeFault?, orElse_eq_none_iff, List.findSome?_eq_none_iff, hn]
  constructor
  · rintro ⟨e, x⟩ hx
    rw [Arena.mem_entries] at hx
    simp [outside _ (ha.source_live e x hx), outside _ (ha.target_live e x hx)]
  · have listed (e x) (h : (e, x) ∈ n.edges.filterMap fun e => (a.edge? e).map (e, ·)) :
        a.edge? e = some x := by
      obtain ⟨f, -, hf⟩ := List.mem_filterMap.1 h
      obtain ⟨y, hy, he⟩ := Option.map_eq_some_iff.1 hf
      cases he
      exact hy
    refine List.findSome?_eq_none_iff.2 ?_
    rintro ⟨e, x⟩ he
    refine repeatFault?_eq_none_iff.2 fun f hf => ?_
    exact Nat.le_of_eq (ha.edge_unique e f x (listed e x he) (listed f x hf))

theorem fuse_eq (ha : a.WellFormed) (hg : ∀ q ∈ group, a.isLive q = true)
    (hne : ∃ q, q ∈ group) : a.fuse group = ⟨.ok a.nodes.size, a.merged group⟩ := by
  have hgone (q : NodeId) (hq : q ∈ group) : (a.merged group).isLive q = false := by
    rw [← Bool.not_eq_true, isLive_merged_iff hg]
    rintro (rfl | ⟨-, h⟩)
    · exact size_not_mem hg hq
    · exact h hq
  have hfresh : (a.merged group).isLive a.nodes.size = true :=
    (isLive_merged_iff hg).2 (Or.inl rfl)
  have hfault : (a.merged group).mergeFault? group a.nodes.size = none :=
    (ha.merged hg hne).mergeFault?_eq_none hfresh hgone
  rw [Automaton.merged] at hfault
  simp only [fuse, ha.missingFault?_eq_none hg, hfault]
  rfl

/-- The merge of at least two live nodes succeeds. -/
theorem merge_eq (ha : a.WellFormed) (hg : ∀ q ∈ group, a.isLive q = true)
    (htwo : 2 ≤ group.size) : a.merge group = ⟨.ok (some a.nodes.size), a.merged group⟩ := by
  obtain ⟨p, hp, -⟩ := SortedSet.one_lt_size_iff.1 htwo
  rw [merge, find?_not_isLive hg, ha.fuse_eq hg ⟨p, hp⟩]
  simp only [Nat.not_lt.2 htwo, if_false]
  rfl

end WellFormed

/-- The merge of fewer than two live nodes changes nothing. -/
theorem merge_of_size_lt_two (hg : ∀ q ∈ group, a.isLive q = true) (hlt : group.size < 2) :
    a.merge group = ⟨.ok group.min?, a⟩ := by
  rw [merge, find?_not_isLive hg]
  simp only [hlt, if_true]

/-! ## The nodes outside the group -/

namespace WellFormed

theorem isLive_edges_merged_iff (ha : a.WellFormed) (hg : ∀ q ∈ group, a.isLive q = true)
    (he : a.edge? e = some x) :
    (a.merged group).edges.isLive e = true ↔ a.Survives (a.freshen group) e x := by
  rw [Arena.isLive_iff]
  constructor
  · rintro ⟨y, hy⟩
    obtain ⟨z, hz, hs, -⟩ := (ha.edge?_merged hg).1 hy
    exact Option.some.inj (hz.symm.trans he) ▸ hs
  · intro hs
    exact ⟨_, (ha.edge?_merged hg).2 ⟨x, he, hs, rfl⟩⟩

theorem not_mem_forgotten_iff (ha : a.WellFormed) (hg : ∀ q ∈ group, a.isLive q = true)
    (he : a.edge? e = some x) (hq : x.incidentTo q = true) :
    e ∉ a.forgotten group q ↔ (a.merged group).edges.isLive e = true := by
  rw [ha.mem_forgotten hg he, ha.isLive_edges_merged_iff hg he]
  simp [hq]

/-- A view of a node outside the group keeps the edges that are left, in their order. -/
theorem filter_view (ha : a.WellFormed) (hg : ∀ q ∈ group, a.isLive q = true) {es : List EdgeId}
    (hes : ∀ e ∈ es, ∃ x, a.edge? e = some x ∧ x.incidentTo q = true) :
    es.filter (· ∉ a.forgotten group q) = es.filter (a.merged group).edges.isLive := by
  refine List.filter_congr fun e he => ?_
  obtain ⟨x, hx, hq⟩ := hes e he
  rw [Bool.eq_iff_iff, decide_eq_true_eq, ha.not_mem_forgotten_iff hg hx hq]

theorem node?_merged_eq (ha : a.WellFormed) (hg : ∀ q ∈ group, a.isLive q = true) {n : Node}
    (hn : a.node? q = some n) (hq : q ∉ group) : (a.merged group).node? q = some
      { n with
        edges := n.edges.filter (a.merged group).edges.isLive
        outgoing := n.outgoing.filter (a.merged group).edges.isLive
        incoming := n.incoming.filter (a.merged group).edges.isLive } := by
  have hm : q ≠ a.nodes.size := ne_size_of_isLive (isLive_iff.2 ⟨n, hn⟩)
  have hout (e) (he : e ∈ n.outgoing) : ∃ x, a.edge? e = some x ∧ x.incidentTo q = true := by
    obtain ⟨x, hx, hs⟩ := (ha.mem_outgoing q n hn e).1 he
    exact ⟨x, hx, Edge.incidentTo_iff.2 (Or.inl hs)⟩
  have hin (e) (he : e ∈ n.incoming) : ∃ x, a.edge? e = some x ∧ x.incidentTo q = true := by
    obtain ⟨x, hx, ht⟩ := (ha.mem_incoming q n hn e).1 he
    exact ⟨x, hx, Edge.incidentTo_iff.2 (Or.inr ht)⟩
  rw [← ha.filter_view hg fun e he => (ha.mem_edges q n hn e).1 he, ← ha.filter_view hg hout,
    ← ha.filter_view hg hin, node?_merged_of_not_mem hq hm, hn]
  rfl

end WellFormed

end Automaton

end StateMerging
