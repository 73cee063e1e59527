import StateMerging.Automaton.Contract

/-!
# The search for a violation decides the contract

`violation?_eq_none_iff`: no violation is found exactly when the automaton meets its contract.  The
search never compares a view with the edges directly.  What it establishes for the views of one node
is `Filed`: they list live edges, each once, and the directed views are read off the view of all
edges.  That no live edge is missing there comes from the search through the edges, which looks for
each of them at both of its endpoints.
-/

namespace StateMerging.Automaton

variable {a : Automaton} {q : NodeId} {n : Node}

theorem orElse_eq_none_iff {α : Type} {o p : Option α} :
    (o <|> p) = none ↔ o = none ∧ p = none := by simp

theorem orElse_eq_some_iff {α : Type} {o p : Option α} {x : α} :
    (o <|> p) = some x ↔ o = some x ∨ (o = none ∧ p = some x) := by
  simp [Option.or_eq_some_iff]

/-! ## The views of one node -/

/-- The views of a node list live edges, each once, and the directed views are read off the view of
all edges. -/
structure Filed (a : Automaton) (q : NodeId) (n : Node) : Prop where
  edges_nodup : n.edges.Nodup
  outgoing_nodup : n.outgoing.Nodup
  incoming_nodup : n.incoming.Nodup
  edge_of_mem : ∀ e ∈ n.edges, ∃ x, a.edge? e = some x ∧ x.incidentTo q = true
  mem_outgoing : ∀ e, e ∈ n.outgoing ↔ e ∈ n.edges ∧ ∃ x, a.edge? e = some x ∧ x.source = q
  mem_incoming : ∀ e, e ∈ n.incoming ↔ e ∈ n.edges ∧ ∃ x, a.edge? e = some x ∧ x.target = q

theorem roleFault?_eq_none_iff :
    a.roleFault? q n = none ↔ ∀ e ∈ n.edges, ∀ x, a.edge? e = some x →
      (x.source = q ↔ e ∈ n.outgoing) ∧ (x.target = q ↔ e ∈ n.incoming) := by
  rw [roleFault?, List.findSome?_eq_none_iff]
  refine forall₂_congr fun e _ => ?_
  cases a.edge? e with
  | none => simp
  | some x => simp [not_or]

theorem viewsFault?_eq_none_iff : a.viewsFault? q n = none ↔ a.Filed q n := by
  simp only [viewsFault?, orElse_eq_none_iff, viewFault?_eq_none_iff, roleFault?_eq_none_iff,
    List.not_mem_nil, not_false_eq_true, true_and, Bool.and_eq_true, decide_eq_true_eq]
  constructor
  · rintro ⟨⟨he, hem⟩, ⟨ho, hom⟩, ⟨hi, him⟩, hr⟩
    refine ⟨he, ho, hi, hem, fun e => ⟨fun h => ?_, ?_⟩, fun e => ⟨fun h => ?_, ?_⟩⟩
    · obtain ⟨x, hx, hs, hmem⟩ := hom e h
      exact ⟨hmem, x, hx, hs⟩
    · rintro ⟨hmem, x, hx, hs⟩
      exact (hr e hmem x hx).1.1 hs
    · obtain ⟨x, hx, ht, hmem⟩ := him e h
      exact ⟨hmem, x, hx, ht⟩
    · rintro ⟨hmem, x, hx, ht⟩
      exact (hr e hmem x hx).2.1 ht
  · intro h
    refine ⟨⟨h.edges_nodup, h.edge_of_mem⟩, ⟨h.outgoing_nodup, fun e he => ?_⟩,
      ⟨h.incoming_nodup, fun e he => ?_⟩, fun e hmem x hx => ⟨?_, ?_⟩⟩
    · obtain ⟨hmem, x, hx, hs⟩ := (h.mem_outgoing e).1 he
      exact ⟨x, hx, hs, hmem⟩
    · obtain ⟨hmem, x, hx, ht⟩ := (h.mem_incoming e).1 he
      exact ⟨x, hx, ht, hmem⟩
    · rw [h.mem_outgoing e]
      simp [hmem, hx]
    · rw [h.mem_incoming e]
      simp [hmem, hx]

/-! ## The clauses of the search -/

theorem finalFault?_eq_none_iff :
    a.finalFault? q = none ↔ ∃ n, a.node? q = some n ∧ n.accepting = true := by
  unfold finalFault?
  cases a.node? q <;> simp

theorem nodeFault?_eq_none_iff :
    a.nodeFault? q n = none ↔ (n.accepting = true → q ∈ a.finals) ∧ a.Filed q n := by
  rw [nodeFault?, orElse_eq_none_iff, viewsFault?_eq_none_iff]
  simp

theorem endpointFault?_eq_none_iff {e : EdgeId} :
    a.endpointFault? e q = none ↔ ∃ n, a.node? q = some n ∧ e ∈ n.edges := by
  unfold endpointFault?
  cases a.node? q <;> simp

theorem isFirst_iff {entries : List (EdgeId × Edge)} {e : EdgeId} {x : Edge} :
    isFirst entries e x = true ↔ ∀ f, (f, x) ∈ entries → e ≤ f := by
  simp only [isFirst, Bool.not_eq_true', List.any_eq_false, Bool.and_eq_true, decide_eq_true_eq,
    not_and, Prod.forall]
  constructor
  · intro h f hf
    exact Nat.le_of_not_lt fun hlt => h f x hf hlt rfl
  · rintro h f y hy hlt rfl
    exact absurd (h f hy) (Nat.not_le_of_lt hlt)

theorem repeatFault?_eq_none_iff {entries : List (EdgeId × Edge)} {e : EdgeId} {x : Edge} :
    repeatFault? entries e x = none ↔ ∀ f, (f, x) ∈ entries → e ≤ f := by
  rw [← isFirst_iff, repeatFault?]
  simp

theorem edgeFault?_eq_none_iff {e : EdgeId} {x : Edge} :
    a.edgeFault? e x = none ↔ (∃ n, a.node? x.source = some n ∧ e ∈ n.edges) ∧
      (∃ n, a.node? x.target = some n ∧ e ∈ n.edges) ∧ ∀ f, a.edge? f = some x → e ≤ f := by
  simp only [edgeFault?, orElse_eq_none_iff, endpointFault?_eq_none_iff, repeatFault?_eq_none_iff,
    Arena.mem_entries]
  rfl

/-! ## The contract -/

theorem WellFormed.filed (ha : a.WellFormed) (hq : a.node? q = some n) : a.Filed q n where
  edges_nodup := ha.edges_nodup q n hq
  outgoing_nodup := ha.outgoing_nodup q n hq
  incoming_nodup := ha.incoming_nodup q n hq
  edge_of_mem e he := (ha.mem_edges q n hq e).1 he
  mem_outgoing e := by
    rw [ha.mem_outgoing q n hq e, ha.mem_edges q n hq e]
    constructor
    · intro h
      obtain ⟨x, hx, hs⟩ := h
      exact ⟨⟨x, hx, by simp [hs]⟩, x, hx, hs⟩
    · intro h
      exact h.2
  mem_incoming e := by
    rw [ha.mem_incoming q n hq e, ha.mem_edges q n hq e]
    constructor
    · intro h
      obtain ⟨x, hx, ht⟩ := h
      exact ⟨⟨x, hx, by simp [ht]⟩, x, hx, ht⟩
    · intro h
      exact h.2

/-- An edge that is filed at both of its endpoints is in the view of each node that it touches. -/
theorem mem_edges_of_incidentTo {e : EdgeId} {x : Edge}
    (hs : ∃ n, a.node? x.source = some n ∧ e ∈ n.edges)
    (ht : ∃ n, a.node? x.target = some n ∧ e ∈ n.edges) (hq : a.node? q = some n)
    (h : x.incidentTo q = true) : e ∈ n.edges := by
  obtain ⟨n₁, h₁, hm₁⟩ := hs
  obtain ⟨n₂, h₂, hm₂⟩ := ht
  rcases Edge.incidentTo_iff.1 h with rfl | rfl
  · have : n₁ = n := Option.some.inj (h₁.symm.trans hq)
    exact this ▸ hm₁
  · have : n₂ = n := Option.some.inj (h₂.symm.trans hq)
    exact this ▸ hm₂

/-- What the search looks at, clause by clause. -/
theorem violation?_eq_none_iff_clauses : a.violation? = none ↔
    a.isLive a.start = true ∧
    (∀ q ∈ a.finals, ∃ n, a.node? q = some n ∧ n.accepting = true) ∧
    (∀ q ∈ a.frontier, a.isLive q = true) ∧
    (∀ q n, a.node? q = some n → (n.accepting = true → q ∈ a.finals) ∧ a.Filed q n) ∧
    ∀ e x, a.edge? e = some x → (∃ n, a.node? x.source = some n ∧ e ∈ n.edges) ∧
      (∃ n, a.node? x.target = some n ∧ e ∈ n.edges) ∧ ∀ f, a.edge? f = some x → e ≤ f := by
  have hstart : (if a.isLive a.start then none else some (Violation.retiredStart a.start)) = none ↔
      a.isLive a.start = true := by simp
  have hfrontier : ((a.frontier.toList.find? fun q => !a.isLive q).map .retiredFrontierNode :
      Option Violation) = none ↔ ∀ q ∈ a.frontier, a.isLive q = true := by
    simp [SortedSet.mem_toList]
  simp only [violation?, orElse_eq_none_iff, hstart, hfrontier, List.findSome?_eq_none_iff,
    finalFault?_eq_none_iff, nodeFault?_eq_none_iff, edgeFault?_eq_none_iff, Prod.forall,
    Arena.mem_entries, SortedSet.mem_toList]
  rfl

theorem violation?_eq_none_iff : a.violation? = none ↔ a.Contract := by
  rw [violation?_eq_none_iff_clauses]
  constructor
  · rintro ⟨hlive, hfin, hfro, hnode, hedge⟩
    have listed (q n) (hq : a.node? q = some n) (e x) (hx : a.edge? e = some x)
        (h : x.incidentTo q = true) : e ∈ n.edges :=
      mem_edges_of_incidentTo (hedge e x hx).1 (hedge e x hx).2.1 hq h
    have hviews (q n) (hq : a.node? q = some n) := (hnode q n hq).2
    refine
      { start_live := hlive
        mem_finals := fun q => ⟨hfin q, ?_⟩
        source_live := fun e x hx => isLive_iff.2 ((hedge e x hx).1.imp fun _ h => h.1)
        target_live := fun e x hx => isLive_iff.2 ((hedge e x hx).2.1.imp fun _ h => h.1)
        edges_nodup := fun q n hq => (hviews q n hq).edges_nodup
        mem_edges := fun q n hq e => ⟨(hviews q n hq).edge_of_mem e, ?_⟩
        outgoing_nodup := fun q n hq => (hviews q n hq).outgoing_nodup
        mem_outgoing := fun q n hq e => ((hviews q n hq).mem_outgoing e).trans
          ⟨fun h => h.2, fun h => ⟨?_, h⟩⟩
        incoming_nodup := fun q n hq => (hviews q n hq).incoming_nodup
        mem_incoming := fun q n hq e => ((hviews q n hq).mem_incoming e).trans
          ⟨fun h => h.2, fun h => ⟨?_, h⟩⟩
        edge_unique := fun e f x he hf => Nat.le_antisymm ((hedge e x he).2.2 f hf)
          ((hedge f x hf).2.2 e he)
        frontier_live := hfro }
    · rintro ⟨n, hn, haccepting⟩
      exact (hnode q n hn).1 haccepting
    · rintro ⟨x, hx, h⟩
      exact listed q n hq e x hx h
    · obtain ⟨x, hx, hsource⟩ := h
      exact listed q n hq e x hx (by simp [hsource])
    · obtain ⟨x, hx, htarget⟩ := h
      exact listed q n hq e x hx (by simp [htarget])
  · intro h
    refine ⟨h.start_live, fun q hq => (h.mem_finals q).1 hq, h.frontier_live, fun q n hq =>
      ⟨fun hacc => (h.mem_finals q).2 ⟨n, hq, hacc⟩, h.filed hq⟩, fun e x hx => ⟨?_, ?_, ?_⟩⟩
    · obtain ⟨n, hn⟩ := isLive_iff.1 (h.source_live e x hx)
      exact ⟨n, hn, (h.mem_edges _ n hn e).2 ⟨x, hx, by simp⟩⟩
    · obtain ⟨n, hn⟩ := isLive_iff.1 (h.target_live e x hx)
      exact ⟨n, hn, (h.mem_edges _ n hn e).2 ⟨x, hx, by simp⟩⟩
    · intro f hf
      exact Nat.le_of_eq (h.edge_unique e f x hx hf)

end StateMerging.Automaton
