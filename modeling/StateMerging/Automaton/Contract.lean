import StateMerging.Automaton.Violation

/-!
# The structural contract

`Automaton.WellFormed` says what an automaton keeps between operations: the start node is live, the
final nodes are the live accepting nodes, edges end in live nodes, each view of a node lists exactly
the edges it is meant for, and no two edges agree in source, label and target.
`Automaton.Contract` adds that the frontier is live.

`Automaton.violation?` looks for the first violation of the contract: the start node, the final
nodes and the frontier come first, then the nodes with their views, then the edges, each in
ascending order of handles.

* `viewFault?_eq_none_iff`: what it means that no fault is found in a view.
-/

namespace StateMerging.Automaton

/-! ## The contract -/

/-- The contract without its clause on the frontier. -/
structure WellFormed (a : Automaton) : Prop where
  start_live : a.isLive a.start = true
  /-- The final nodes are the live accepting nodes. -/
  mem_finals : ∀ q, q ∈ a.finals ↔ ∃ n, a.node? q = some n ∧ n.accepting = true
  source_live : ∀ e x, a.edge? e = some x → a.isLive x.source = true
  target_live : ∀ e x, a.edge? e = some x → a.isLive x.target = true
  edges_nodup : ∀ q n, a.node? q = some n → n.edges.Nodup
  mem_edges : ∀ q n, a.node? q = some n →
    ∀ e, e ∈ n.edges ↔ ∃ x, a.edge? e = some x ∧ x.incidentTo q = true
  outgoing_nodup : ∀ q n, a.node? q = some n → n.outgoing.Nodup
  mem_outgoing : ∀ q n, a.node? q = some n →
    ∀ e, e ∈ n.outgoing ↔ ∃ x, a.edge? e = some x ∧ x.source = q
  incoming_nodup : ∀ q n, a.node? q = some n → n.incoming.Nodup
  mem_incoming : ∀ q n, a.node? q = some n →
    ∀ e, e ∈ n.incoming ↔ ∃ x, a.edge? e = some x ∧ x.target = q
  edge_unique : ∀ e f x, a.edge? e = some x → a.edge? f = some x → e = f

/-- What an automaton keeps between operations. -/
structure Contract (a : Automaton) : Prop extends WellFormed a where
  frontier_live : ∀ q ∈ a.frontier, a.isLive q = true

/-! ## Looking for a violation -/

/-- The first fault of a view of node `q`: an edge that is not live, that does not fit the view, or
that the view or `earlier` has already listed. -/
def viewFault? (a : Automaton) (q : NodeId) (fits : EdgeId → Edge → Bool) (earlier : List EdgeId) :
    List EdgeId → Option Violation
  | [] => none
  | e :: es =>
    match a.edge? e with
    | none => some (.missingEdge q e)
    | some x =>
      if e ∈ earlier || !fits e x then some (.misfiledEdge q e)
      else a.viewFault? q fits (e :: earlier) es

/-- The first edge at node `q` that is missing in a directed view or is there without belonging. -/
def roleFault? (a : Automaton) (q : NodeId) (n : Node) : Option Violation :=
  n.edges.findSome? fun e =>
    (a.edge? e).bind fun x =>
      if decide (x.source = q) != decide (e ∈ n.outgoing) ||
          decide (x.target = q) != decide (e ∈ n.incoming) then
        some (.misfiledEdge q e)
      else none

/-- The first fault in the views of node `q`. -/
def viewsFault? (a : Automaton) (q : NodeId) (n : Node) : Option Violation :=
  a.viewFault? q (fun _ x => x.incidentTo q) [] n.edges <|>
  a.viewFault? q (fun e x => x.source = q && e ∈ n.edges) [] n.outgoing <|>
  a.viewFault? q (fun e x => x.target = q && e ∈ n.edges) [] n.incoming <|>
  a.roleFault? q n

/-- The fault of a final node. -/
def finalFault? (a : Automaton) (q : NodeId) : Option Violation :=
  match a.node? q with
  | none => some (.retiredFinal q)
  | some n => if n.accepting then none else some (.finalNotAccepting q)

/-- The first fault of a live node. -/
def nodeFault? (a : Automaton) (q : NodeId) (n : Node) : Option Violation :=
  (if n.accepting && q ∉ a.finals then some (.acceptingNotFinal q) else none) <|>
  a.viewsFault? q n

/-- The fault of an edge at its endpoint `q`. -/
def endpointFault? (a : Automaton) (e : EdgeId) (q : NodeId) : Option Violation :=
  match a.node? q with
  | none => some (.danglingEdge e q)
  | some n => if e ∈ n.edges then none else some (.misfiledEdge q e)

/-- Whether no edge of a lower handle agrees with `x` in source, label and target. -/
def isFirst (entries : List (EdgeId × Edge)) (e : EdgeId) (x : Edge) : Bool :=
  !entries.any fun p => p.1 < e && p.2 = x

/-- The fault of an edge that agrees with one of a lower handle. -/
def repeatFault? (entries : List (EdgeId × Edge)) (e : EdgeId) (x : Edge) : Option Violation :=
  if isFirst entries e x then none else some (.duplicateEdge e x)

/-- The first fault of a live edge. -/
def edgeFault? (a : Automaton) (e : EdgeId) (x : Edge) : Option Violation :=
  a.endpointFault? e x.source <|>
  a.endpointFault? e x.target <|>
  repeatFault? a.edges.entries e x

/-- The first violation of the contract. -/
def violation? (a : Automaton) : Option Violation :=
  (if a.isLive a.start then none else some (.retiredStart a.start)) <|>
  a.finals.toList.findSome? a.finalFault? <|>
  (a.frontier.toList.find? fun q => !a.isLive q).map .retiredFrontierNode <|>
  a.nodes.entries.findSome? (fun (q, n) => a.nodeFault? q n) <|>
  a.edges.entries.findSome? (fun (e, x) => a.edgeFault? e x)

theorem viewFault?_eq_none_iff {a : Automaton} {q : NodeId} {fits : EdgeId → Edge → Bool}
    {earlier es : List EdgeId} :
    a.viewFault? q fits earlier es = none ↔
      es.Nodup ∧ ∀ e ∈ es, e ∉ earlier ∧ ∃ x, a.edge? e = some x ∧ fits e x = true := by
  induction es generalizing earlier with
  | nil => simp [viewFault?]
  | cons e es ih =>
    rw [viewFault?]
    cases h : a.edge? e with
    | none => simp [h]
    | some x =>
      by_cases he : e ∈ earlier
      · simp [he]
      by_cases hf : fits e x = true
      · simp only [he, hf, decide_false, Bool.not_true, Bool.or_self, Bool.false_eq_true, if_false,
          ih, List.nodup_cons, List.mem_cons, forall_eq_or_imp, h, Option.some.injEq]
        constructor
        · rintro ⟨hn, hm⟩
          exact ⟨⟨fun hmem => (hm e hmem).1 (Or.inl rfl), hn⟩, ⟨not_false, x, rfl, hf⟩,
            fun c hc => ⟨fun hce => (hm c hc).1 (Or.inr hce), (hm c hc).2⟩⟩
        · rintro ⟨⟨hne, hn⟩, -, hm⟩
          refine ⟨hn, fun c hc => ⟨?_, (hm c hc).2⟩⟩
          rintro (rfl | hce)
          · exact hne hc
          · exact (hm c hc).1 hce
      · simp [he, hf, h]

end StateMerging.Automaton
