import StateMerging.Automaton.Basic

/-!
# Snapshots

A `Snapshot` is a copy of the nodes, edges, start node and final nodes of an automaton at one
moment. It lists live nodes and edges in ascending order of handles.

* `Snapshot.node?` finds the entry of a node by binary search, and `Snapshot.name?` its name.
* `Snapshot.combined` gathers the edges between each pair of nodes, in the order of their first
  edge.
-/

namespace StateMerging

/-- A node of a snapshot. -/
structure NodeEntry where
  handle : NodeId
  name : String
  accepting : Bool
  deriving DecidableEq

/-- All edges from one node to another, gathered for display. -/
structure CombinedEdge where
  source : NodeId
  target : NodeId
  /-- The labels of the edges in ascending order of the edges. -/
  labels : List String
  deriving DecidableEq

/-- The labels of combined edges in one text. -/
def CombinedEdge.label (c : CombinedEdge) : String := ", ".intercalate c.labels

/-- A copy of the structure of an automaton. -/
structure Snapshot where
  /-- The nodes in ascending order of handles. -/
  nodes : Array NodeEntry
  /-- The edges in ascending order of handles. -/
  edges : List (EdgeId × Edge)
  start : NodeId
  accepting : SortedSet NodeId
  deriving DecidableEq

/-- The snapshot of an automaton. -/
def Automaton.snapshot (a : Automaton) : Snapshot where
  nodes := (a.nodes.entries.map fun (q, n) => ⟨q, n.name, n.accepting⟩).toArray
  edges := a.edges.entries
  start := a.start
  accepting := a.finals

namespace Snapshot

/-! ## Looking up nodes -/

/-- The entry of `q` among the entries from position `lo` to before `hi`, found by halving. -/
def search (entries : Array NodeEntry) (q : NodeId) (lo hi : Nat) (bound : hi ≤ entries.size) :
    Option NodeEntry :=
  if h : lo < hi then
    let mid := (lo + hi) / 2
    have : mid < entries.size := by omega
    if entries[mid].handle = q then some entries[mid]
    else if entries[mid].handle < q then search entries q (mid + 1) hi bound
    else search entries q lo mid (by omega)
  else none
termination_by hi - lo

/-- The entry of a node. -/
def node? (s : Snapshot) (q : NodeId) : Option NodeEntry :=
  search s.nodes q 0 s.nodes.size (Nat.le_refl _)

/-- The name of a node. -/
def name? (s : Snapshot) (q : NodeId) : Option String := (s.node? q).map (·.name)

theorem handle_of_search {entries : Array NodeEntry} {q : NodeId} {lo hi : Nat}
    {bound : hi ≤ entries.size} {x : NodeEntry} (h : search entries q lo hi bound = some x) :
    x.handle = q ∧ x ∈ entries := by
  fun_induction search entries q lo hi bound with
  | case1 lo hi bound _ mid hm hq =>
    cases h
    exact ⟨hq, Array.getElem_mem hm⟩
  | case2 lo hi bound _ mid _ _ _ ih => exact ih h
  | case3 lo hi bound _ mid _ _ _ ih => exact ih h
  | case4 => simp at h

/-! ## Combining edges -/

/-- The edges between each pair of nodes, in the order of the first edge of each pair. -/
def combined (s : Snapshot) : List CombinedEdge :=
  (s.edges.map fun (_, x) => (x.source, x.target)).eraseDups.map fun (p, q) =>
    ⟨p, q, (s.edges.filter fun (_, x) => x.source = p && x.target = q).map fun (_, x) => x.label⟩

theorem mem_labels_of_mem_combined {s : Snapshot} {c : CombinedEdge} (hc : c ∈ s.combined)
    {l : String} : l ∈ c.labels ↔ ∃ e, (e, (⟨c.source, l, c.target⟩ : Edge)) ∈ s.edges := by
  obtain ⟨⟨p, q⟩, -, rfl⟩ := List.mem_map.1 hc
  simp only [List.mem_map, List.mem_filter, Bool.and_eq_true, decide_eq_true_eq, Prod.exists]
  constructor
  · rintro ⟨e, x, ⟨hm, rfl, rfl⟩, rfl⟩
    exact ⟨e, hm⟩
  · rintro ⟨e, hm⟩
    exact ⟨e, _, ⟨hm, rfl, rfl⟩, rfl⟩

end Snapshot

end StateMerging
