import StateMerging.Automaton.Contract

/-!
# Merging nodes

`Automaton.merge` replaces a group of nodes by one fresh node.  Every edge at a member stays under
its handle, and an endpoint in the group becomes the fresh node, so that edges between members
become self-loops.  Of the edges that come to agree in source, label and target only the one with
the lowest handle is kept.

The merge is given in closed form.  `collapse` is its map on nodes; `moved` lists the edges at the
members, `images` the same edges with their new endpoints, and `discarded` those that agree with an
earlier one.  `edge?_rewire`, `node?_rewire_size` and `node?_rewire_of_not_mem` say what becomes of
every edge, of the fresh node, and of every node outside the group.
-/

namespace StateMerging.Automaton

/-! ## The map of a merge -/

/-- The map that sends the members of a group to `m` and every other node to itself. -/
def collapse (group : SortedSet NodeId) (m q : NodeId) : NodeId := if q ∈ group then m else q

theorem collapse_of_mem {group : SortedSet NodeId} {m q : NodeId} (h : q ∈ group) :
    collapse group m q = m := if_pos h

theorem collapse_of_not_mem {group : SortedSet NodeId} {m q : NodeId} (h : q ∉ group) :
    collapse group m q = q := if_neg h

/-! ## The edges at the members -/

/-- The live members of a group in ascending order. -/
def members (a : Automaton) (group : SortedSet NodeId) : List Node :=
  group.toList.filterMap a.node?

/-- The handles that the views of the members list. -/
def touched (a : Automaton) (group : SortedSet NodeId) : SortedSet EdgeId :=
  SortedSet.ofList ((a.members group).flatMap (·.edges))

/-- The edges at the members in ascending order, up to the first handle that is not live. -/
def moved (a : Automaton) (group : SortedSet NodeId) : List (EdgeId × Edge) :=
  ((a.touched group).toList.takeWhile a.edges.isLive).filterMap fun e =>
    (a.edge? e).map (e, ·)

/-- The moved edges with the endpoints that they get in a merge into `m`. -/
def images (a : Automaton) (group : SortedSet NodeId) (m : NodeId) : List (EdgeId × Edge) :=
  (a.moved group).map fun (e, x) => (e, x.map (collapse group m))

/-- The moved edges that a merge into `m` discards, with their old endpoints. -/
def discarded (a : Automaton) (group : SortedSet NodeId) (m : NodeId) : List (EdgeId × Edge) :=
  let images := a.images group m
  (a.moved group).filter fun (e, x) => !isFirst images e (x.map (collapse group m))

/-- The node that replaces a group: its name joins the names of the members, it is accepting if some
member is, and it lists the edges that are kept. -/
def replacement (a : Automaton) (group : SortedSet NodeId) (m : NodeId) : Node :=
  let images := a.images group m
  let blank : Node :=
    ⟨",".intercalate ((a.members group).map (·.name)), (a.members group).any (·.accepting),
      [], [], []⟩
  (images.filter fun (e, x) => isFirst images e x).foldl (fun n (e, x) => n.attach m e x) blank

/-! ## Rewiring -/

/-- Stores the replacement of a group under the handle `a.nodes.size` and moves the edges at the
members.  The nodes outside the group forget the discarded edges; the members stay as they are. -/
def rewire (a : Automaton) (group : SortedSet NodeId) : Automaton :=
  let m := a.nodes.size
  let images := a.images group m
  let discarded := a.discarded group m
  { a with
    nodes := (a.nodes.filterMap fun q n =>
      some (if q ∈ group then n
        else n.without ((discarded.filter (·.2.incidentTo q)).map (·.1)))).insert
          (a.replacement group m)
    edges := a.edges.filterMap fun e x =>
      if images.any (·.1 = e) then
        let y := x.map (collapse group m)
        if isFirst images e y then some y else none
      else some x }

/-- Erases the members of a group and puts `m` in their place as start node and as final node. -/
def retire (a : Automaton) (group : SortedSet NodeId) (m : NodeId) : Automaton :=
  let finals := a.finals.filter (· ∉ group)
  { a with
    nodes := a.nodes.filterMap fun q n => if q ∈ group then none else some n
    start := collapse group m a.start
    finals := if a.finals.toList.any (· ∈ group) then finals.insert m else finals }

/-- The fault of the first handle at the members that is not live. -/
def missingFault? (a : Automaton) (group : SortedSet NodeId) : Option Violation :=
  ((a.touched group).toList.find? fun e => !a.edges.isLive e).map fun e =>
    let holder := group.toList.find? fun q => (a.node? q).any (e ∈ ·.edges)
    .missingEdge (holder.getD a.nodes.size) e

/-- The fault of an edge that still ends in a member of the group, or of two edges at `m` that
agree. -/
def mergeFault? (a : Automaton) (group : SortedSet NodeId) (m : NodeId) : Option Violation :=
  (a.edges.entries.findSome? fun (e, x) =>
    if x.source ∈ group then some (.danglingEdge e x.source)
    else if x.target ∈ group then some (.danglingEdge e x.target)
    else none) <|>
  match a.node? m with
  | none => some (.retiredMergeInput m)
  | some n =>
    let entries := n.edges.filterMap fun e => (a.edge? e).map (e, ·)
    entries.findSome? fun (e, x) => repeatFault? entries e x

/-- Replaces a group of at least two live nodes by a fresh node, which is the answer. -/
def fuse (a : Automaton) (group : SortedSet NodeId) : Outcome NodeId :=
  let m := a.nodes.size
  let rewired := a.rewire group
  match a.missingFault? group with
  | some v => ⟨.error v, rewired⟩
  | none =>
    let b := rewired.retire group m
    match b.mergeFault? group m with
    | some v => ⟨.error v, b⟩
    | none => ⟨.ok m, b⟩

/-- Merges a group of nodes.  An empty group has no answer and a single node is its own; the members
of a larger group are replaced by a fresh node. -/
def merge (a : Automaton) (group : SortedSet NodeId) : Outcome (Option NodeId) :=
  match group.toList.find? fun q => !a.isLive q with
  | some q => ⟨.error (.retiredMergeInput q), a⟩
  | none =>
    if group.size < 2 then ⟨.ok group.min?, a⟩
    else
      let o := a.fuse group
      ⟨o.result.map some, o.after⟩

/-! ## What becomes of nodes and edges -/

theorem edge?_rewire (a : Automaton) (group : SortedSet NodeId) (e : EdgeId) :
    (a.rewire group).edge? e =
      (a.edge? e).bind fun x =>
        if (a.images group a.nodes.size).any (·.1 = e) then
          if isFirst (a.images group a.nodes.size) e (x.map (collapse group a.nodes.size)) then
            some (x.map (collapse group a.nodes.size))
          else none
        else some x := Arena.get?_filterMap ..

theorem node?_rewire_size (a : Automaton) (group : SortedSet NodeId) :
    (a.rewire group).node? a.nodes.size = some (a.replacement group a.nodes.size) := by
  simp [rewire, node?, Arena.get?_insert]

theorem node?_rewire_of_not_mem {a : Automaton} {group : SortedSet NodeId} {q : NodeId}
    (hq : q ∉ group) (hm : q ≠ a.nodes.size) :
    (a.rewire group).node? q =
      (a.node? q).map fun n =>
        n.without (((a.discarded group a.nodes.size).filter (·.2.incidentTo q)).map (·.1)) := by
  cases h : a.nodes.get? q <;> simp [rewire, node?, Arena.get?_insert, hq, hm, h]

theorem node?_retire (a : Automaton) (group : SortedSet NodeId) (m q : NodeId) :
    (a.retire group m).node? q = if q ∈ group then none else a.node? q := by
  cases h : a.nodes.get? q <;> by_cases hq : q ∈ group <;> simp [retire, node?, h, hq]

end StateMerging.Automaton
