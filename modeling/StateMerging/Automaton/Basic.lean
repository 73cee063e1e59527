import StateMerging.Node
import StateMerging.Text.Blank

/-!
# Automata

An `Automaton` owns its nodes and edges under handles, has one start node and a set of final nodes,
and remembers how far generalization has come: the phase, and the frontier of nodes that the next
step looks at.

`Automaton.empty` has only a start node.  This module asks for what the automaton holds and makes
the elementary changes: `pushNode`, `addFreshNode`, `addEdge`, `markFinal`, `removeNode`.  A new
node gets the handle `a.nodes.size`, a new edge the handle `a.edges.size`.

* `node?_addEdge`: adding an edge files it at both endpoints and changes no other node.
* `node?_markFinal`, `mem_finals_markFinal`: marking a node makes it accepting and final.
-/

namespace StateMerging

/-- What the next step of generalization merges. -/
inductive Phase
  /-- No step has been made; the first one unifies the final nodes. -/
  | notStarted
  /-- The final nodes are unified; every further step merges nodes of the frontier. -/
  | finalsUnified
  deriving DecidableEq

/-- A finite automaton under generalization. -/
structure Automaton where
  nodes : Arena Node
  edges : Arena Edge
  start : NodeId
  finals : SortedSet NodeId
  /-- The number that names the next fresh node. -/
  nextName : Nat
  phase : Phase
  /-- The nodes that the next step looks at. -/
  frontier : SortedSet NodeId
  deriving DecidableEq

namespace Automaton

/-- The automaton that has only a start node, which is not accepting. -/
def empty : Automaton where
  nodes := (∅ : Arena Node).insert ⟨"0", false, [], [], []⟩
  edges := ∅
  start := 0
  finals := ∅
  nextName := 1
  phase := .notStarted
  frontier := ∅

instance : Inhabited Automaton := ⟨empty⟩

/-! ## What the automaton holds -/

/-- The node under a handle, if it is live. -/
def node? (a : Automaton) (q : NodeId) : Option Node := a.nodes.get? q

/-- The edge under a handle, if it is live. -/
def edge? (a : Automaton) (e : EdgeId) : Option Edge := a.edges.get? e

/-- Whether the node is still there. -/
def isLive (a : Automaton) (q : NodeId) : Bool := a.nodes.isLive q

/-- The number of live nodes. -/
def size (a : Automaton) : Nat := a.nodes.count

/-- The number of live edges. -/
def edgeCount (a : Automaton) : Nat := a.edges.count

/-- Whether the final nodes have been unified. -/
def finalsMerged (a : Automaton) : Bool := a.phase = .finalsUnified

/-- The target of the first edge with the given label that leaves `q`. -/
def successor (a : Automaton) (q : NodeId) (label : String) : Option NodeId :=
  (a.node? q).bind fun n => n.successor a.edges label

/-- The edges that leave `q`, if it is live. -/
def edgesFrom (a : Automaton) (q : NodeId) : Option (List Edge) :=
  (a.node? q).map fun n => n.outEdges a.edges

/-- The edges that reach `q`, if it is live. -/
def edgesTo (a : Automaton) (q : NodeId) : Option (List Edge) :=
  (a.node? q).map fun n => n.inEdges a.edges

/-- The nodes with an edge to `q`, without `q` itself. -/
def predecessors (a : Automaton) (q : NodeId) : SortedSet NodeId :=
  ((a.node? q).map fun n => n.predecessors a.edges q).getD ∅

/-- Whether `q` is live and two edges that leave it carry the same label. -/
def isNondeterministic (a : Automaton) (q : NodeId) : Bool :=
  (a.node? q).any fun n => n.isNondeterministic a.edges

/-- Whether no node has two edges that leave it with the same label. -/
def isDeterministic (a : Automaton) : Bool :=
  a.nodes.entries.all fun (_, n) => !n.isNondeterministic a.edges

theorem isLive_iff {a : Automaton} {q : NodeId} :
    a.isLive q = true ↔ ∃ n, a.node? q = some n := Arena.isLive_iff

theorem isLive_eq_false_iff {a : Automaton} {q : NodeId} :
    a.isLive q = false ↔ a.node? q = none :=
  Option.isSome_eq_false_iff.trans Option.isNone_iff_eq_none

theorem isDeterministic_iff {a : Automaton} :
    a.isDeterministic = true ↔ ∀ q, a.isNondeterministic q = false := by
  simp only [isDeterministic, List.all_eq_true, Prod.forall, Arena.mem_entries, isNondeterministic,
    node?]
  constructor
  · intro h q
    cases hq : a.nodes.get? q with
    | none => rfl
    | some n => simpa using h q n hq
  · intro h q n hq
    simpa [hq] using h q

/-! ## Elementary changes -/

/-- Changes the node under a handle, if it is live. -/
def modifyNode (a : Automaton) (q : NodeId) (f : Node → Node) : Automaton :=
  { a with nodes := a.nodes.modify q f }

/-- Stores a node without edges under the handle `a.nodes.size`. -/
def pushNode (a : Automaton) (name : String) (accepting : Bool) : Automaton :=
  { a with nodes := a.nodes.insert ⟨name, accepting, [], [], []⟩ }

/-- Stores a node that is not accepting and has the next number for its name. -/
def addFreshNode (a : Automaton) : Automaton :=
  { a.pushNode (toString a.nextName) false with nextName := a.nextName + 1 }

/-- Stores an edge under the handle `a.edges.size` and files it at the endpoints that are live. -/
def addEdge (a : Automaton) (source : NodeId) (label : String) (target : NodeId) : Automaton :=
  let e := a.edges.size
  let x : Edge := ⟨source, label, target⟩
  let nodes := a.nodes.modify source (·.attach source e x)
  { a with
    edges := a.edges.insert x
    nodes := if source = target then nodes else nodes.modify target (·.attach target e x) }

/-- Makes a live node accepting and final. -/
def markFinal (a : Automaton) (q : NodeId) : Automaton :=
  if a.isLive q then
    { a.modifyNode q ({ · with accepting := true }) with finals := a.finals.insert q }
  else a

/-- Erases a node, also from the final nodes. -/
def removeNode (a : Automaton) (q : NodeId) : Automaton :=
  { a with nodes := a.nodes.erase q, finals := a.finals.erase q }

@[simp] theorem edge?_addEdge (a : Automaton) (s : NodeId) (l : String) (t : NodeId) (e : EdgeId) :
    (a.addEdge s l t).edge? e = if e = a.edges.size then some ⟨s, l, t⟩ else a.edge? e :=
  Arena.get?_insert ..

theorem node?_addEdge (a : Automaton) (s : NodeId) (l : String) (t q : NodeId) :
    (a.addEdge s l t).node? q = (a.node? q).map (·.attach q a.edges.size ⟨s, l, t⟩) := by
  have apart (n : Node) (hs : s ≠ q) (ht : t ≠ q) : n.attach q a.edges.size ⟨s, l, t⟩ = n :=
    Node.attach_eq_self (by simp [Edge.incidentTo, hs, ht])
  simp only [addEdge, node?]
  by_cases hst : s = t
  · subst hst
    by_cases hs : s = q
    · subst hs
      simp [Arena.get?_modify]
    · cases hq : a.nodes.get? q with
      | none => simp [Arena.get?_modify, hs, hq]
      | some n => simp [Arena.get?_modify, hs, hq, apart n hs hs]
  · rw [if_neg hst, Arena.get?_modify, Arena.get?_modify]
    by_cases hs : s = q
    · subst hs
      simp [Ne.symm hst]
    · by_cases ht : t = q
      · subst ht
        simp [hs]
      · cases hq : a.nodes.get? q with
        | none => simp [hs, ht]
        | some n => simp [hs, ht, apart n hs ht]

theorem node?_markFinal (a : Automaton) (q p : NodeId) :
    (a.markFinal q).node? p =
      if q = p then (a.node? p).map ({ · with accepting := true }) else a.node? p := by
  unfold markFinal
  split
  · exact Arena.get?_modify ..
  · rename_i h
    split
    · subst_vars
      have : a.node? p = none := by simpa [isLive, Arena.isLive, node?] using h
      simp [this]
    · rfl

theorem mem_finals_markFinal (a : Automaton) (q p : NodeId) :
    p ∈ (a.markFinal q).finals ↔ (p = q ∧ a.isLive q = true) ∨ p ∈ a.finals := by
  unfold markFinal
  split <;> simp [*]

end Automaton

end StateMerging
