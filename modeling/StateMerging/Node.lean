import StateMerging.Arena
import StateMerging.Edge
import StateMerging.SortedSet

/-!
# Nodes

A `Node` carries a name, says whether it is accepting, and files the handles of the edges that touch
it in three views: all its edges, the ones that leave it and the ones that reach it.  A self-loop is
in both directed views and once among all edges.  A view lists its handles in the order in which the
edges were attached.

The edges themselves live in an arena beside the node.  A handle in a view whose edge is not in the
arena is skipped by every question asked here: `outEdges`, `inEdges`, `successor`, `labelTargets`,
`isNondeterministic`, `predecessors`.  The two notions of a branching label are related by
`isNondeterministic_iff` and `mem_labelTargets`.

A node does not know its own handle; operations that need it take it as the argument `q`.
-/

namespace StateMerging

/-- A node with its views on the edges that touch it. -/
structure Node where
  name : String
  /-- Whether some sentence ends in the node. -/
  accepting : Bool
  /-- All edges that touch the node. -/
  edges : List EdgeId := []
  outgoing : List EdgeId := []
  incoming : List EdgeId := []
  deriving DecidableEq

namespace Node

/-! ## Filing edges -/

/-- Files edge `e` in the views of node `q` that it belongs to: in none if it does not touch `q`. -/
def attach (n : Node) (q : NodeId) (e : EdgeId) (x : Edge) : Node :=
  { n with
    edges := if x.incidentTo q then n.edges ++ [e] else n.edges
    outgoing := if x.source = q then n.outgoing ++ [e] else n.outgoing
    incoming := if x.target = q then n.incoming ++ [e] else n.incoming }

/-- Takes the edges of a list out of all views. -/
def without (n : Node) (es : List EdgeId) : Node :=
  { n with
    edges := n.edges.filter (· ∉ es)
    outgoing := n.outgoing.filter (· ∉ es)
    incoming := n.incoming.filter (· ∉ es) }

/-- Takes edge `e` out of all views. -/
def detach (n : Node) (e : EdgeId) : Node := n.without [e]

theorem attach_eq_self {n : Node} {q : NodeId} {e : EdgeId} {x : Edge}
    (h : x.incidentTo q = false) : n.attach q e x = n := by
  have hs : x.source ≠ q := fun hs => by simp [Edge.incidentTo, hs] at h
  have ht : x.target ≠ q := fun ht => by simp [Edge.incidentTo, ht] at h
  simp [attach, h, hs, ht]

@[simp] theorem without_nil (n : Node) : n.without [] = n := by
  cases n
  simp [without]

theorem without_without (n : Node) (es fs : List EdgeId) :
    (n.without es).without fs = n.without (es ++ fs) := by
  simp [without, List.filter_filter, Bool.and_comm]

theorem detach_detach (n : Node) (e : EdgeId) : (n.detach e).detach e = n.detach e := by
  simp [detach, without]

theorem detach_eq_self {n : Node} {e : EdgeId} (h : e ∉ n.edges) (ho : e ∉ n.outgoing)
    (hi : e ∉ n.incoming) : n.detach e = n := by
  have stays (es : List EdgeId) (h : e ∉ es) : es.filter (· ∉ [e]) = es :=
    List.filter_eq_self.2 fun f hf => by simpa using ne_of_mem_of_not_mem hf h
  rw [detach, without, stays _ h, stays _ ho, stays _ hi]

@[simp] theorem accepting_attach (n : Node) (q : NodeId) (e : EdgeId) (x : Edge) :
    (n.attach q e x).accepting = n.accepting := rfl

/-! ## Questions about the edges of a node -/

/-- The edges that leave the node. -/
def outEdges (n : Node) (edges : Arena Edge) : List Edge := n.outgoing.filterMap edges.get?

/-- The edges that reach the node. -/
def inEdges (n : Node) (edges : Arena Edge) : List Edge := n.incoming.filterMap edges.get?

/-- The target of the first edge with the given label that leaves the node. -/
def successor (n : Node) (edges : Arena Edge) (label : String) : Option NodeId :=
  ((n.outEdges edges).find? (·.label = label)).map (·.target)

/-- The labels of the edges that leave the node in ascending order, each with its targets. -/
def labelTargets (n : Node) (edges : Arena Edge) : List (String × SortedSet NodeId) :=
  groups ((n.outEdges edges).map fun x => (x.label, x.target))

/-- Whether two edges that leave the node carry the same label. -/
def isNondeterministic (n : Node) (edges : Arena Edge) : Bool :=
  !decide ((n.outEdges edges).map (·.label)).Nodup

/-- The sources of the edges that reach node `q`, without `q` itself. -/
def predecessors (n : Node) (edges : Arena Edge) (q : NodeId) : SortedSet NodeId :=
  (SortedSet.ofList ((n.inEdges edges).map (·.source))).erase q

/-- Where the edges that leave the node lead. -/
def adjacencies (n : Node) (edges : Arena Edge) : List Adjacency :=
  (n.outEdges edges).map (·.adjacency)

theorem mem_outEdges {n : Node} {edges : Arena Edge} {x : Edge} :
    x ∈ n.outEdges edges ↔ ∃ e ∈ n.outgoing, edges.get? e = some x := by
  simp [outEdges]

theorem mem_inEdges {n : Node} {edges : Arena Edge} {x : Edge} :
    x ∈ n.inEdges edges ↔ ∃ e ∈ n.incoming, edges.get? e = some x := by
  simp [inEdges]

theorem isNondeterministic_iff {n : Node} {edges : Arena Edge} :
    n.isNondeterministic edges = true ↔ ¬ ((n.outEdges edges).map (·.label)).Nodup := by
  simp [isNondeterministic]

theorem mem_labelTargets {n : Node} {edges : Arena Edge} {l : String} {ts : SortedSet NodeId} :
    (l, ts) ∈ n.labelTargets edges ↔
      (∃ t, ∃ x ∈ n.outEdges edges, x.label = l ∧ x.target = t) ∧
        ∀ t, t ∈ ts ↔ ∃ x ∈ n.outEdges edges, x.label = l ∧ x.target = t := by
  simp [labelTargets, mem_groups]

theorem mem_predecessors {n : Node} {edges : Arena Edge} {q p : NodeId} :
    p ∈ n.predecessors edges q ↔ (∃ x ∈ n.inEdges edges, x.source = p) ∧ p ≠ q := by
  simp [predecessors]

end Node

end StateMerging
