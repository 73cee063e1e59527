import StateMerging.Proofs.Incidence
import Mathlib.Data.Finset.Card

/-!
# Quotients of automata

`IsQuotient h a b` says that the automaton `b` arises from `a` by sending every node along `h`: its
nodes, edges, start node and final nodes are the images, a node keeps its handle and its name unless
it goes to a handle that was never used, and an edge whose image is taken by another one gives way
to a lower handle.  Every merge is such a quotient, and so is a sequence of merges
(`IsQuotient.refl`, `IsQuotient.trans`).

* `IsQuotient.accepts`: a quotient accepts what the automaton accepts.
* `IsQuotient.isNondeterministic_of_lt`: a node that keeps its handle is nondeterministic in the
  quotient only if it was before.
* `IsQuotient.size_le` and `IsQuotient.size_lt`: a quotient has no more nodes, and fewer if two live
  nodes are sent to one.
-/

namespace StateMerging.Automaton

/-- The second automaton arises from the first by sending every node along `h`. -/
structure IsQuotient (h : NodeId → NodeId) (a b : Automaton) : Prop where
  /-- The live nodes are the images of the live nodes. -/
  isLive_iff : ∀ q, b.isLive q = true ↔ ∃ p, a.isLive p = true ∧ h p = q
  /-- A node keeps its handle or goes to one that was never used. -/
  fixed_or_fresh : ∀ p, h p = p ∨ a.nodes.size ≤ h p
  /-- A node that keeps its handle keeps its name, and stays accepting or not. -/
  node_kept : ∀ p n, a.node? p = some n → h p = p →
    ∃ k, b.node? p = some k ∧ k.name = n.name ∧ k.accepting = n.accepting
  /-- No handle is given back. -/
  nodes_size_le : a.nodes.size ≤ b.nodes.size
  /-- The start node is the image of the start node. -/
  start_eq : b.start = h a.start
  /-- The final nodes are the images of the final nodes. -/
  mem_finals : ∀ q, q ∈ b.finals ↔ ∃ p ∈ a.finals, h p = q
  /-- An edge is the image of the edge that had its handle. -/
  edge_of : ∀ e y, b.edge? e = some y → ∃ x, a.edge? e = some x ∧ x.map h = y
  /-- The image of an edge is an edge, under its handle or a lower one. -/
  edge_kept : ∀ e x, a.edge? e = some x → ∃ f ≤ e, b.edge? f = some (x.map h)

theorem lt_size_of_isLive {a : Automaton} {q : NodeId} (hq : a.isLive q = true) :
    q < a.nodes.size := by
  obtain ⟨n, hn⟩ := isLive_iff.1 hq
  exact Arena.lt_size_of_get? hn

theorem size_eq_card (a : Automaton) : a.size = a.nodes.handles.card := a.nodes.count_eq_card

namespace IsQuotient

variable {a b c : Automaton} {h g : NodeId → NodeId} {p q : NodeId} {l : String}

/-! ## Nodes that keep their handles -/

/-- Only the node itself goes to a handle that was issued before. -/
theorem eq_of_lt (k : IsQuotient h a b) (hq : q < a.nodes.size) (hp : h p = q) : p = q := by
  rcases k.fixed_or_fresh p with e | e
  · exact e.symm.trans hp
  · rw [hp] at e
    exact absurd e (Nat.not_le_of_lt hq)

/-! ## Sequences of quotients -/

theorem refl (a : Automaton) : IsQuotient id a a where
  isLive_iff q := by simp
  fixed_or_fresh p := Or.inl rfl
  node_kept p n hn _ := ⟨n, hn, rfl, rfl⟩
  nodes_size_le := Nat.le_refl _
  start_eq := rfl
  mem_finals q := by simp
  edge_of e y hy := ⟨y, hy, rfl⟩
  edge_kept e x hx := ⟨e, Nat.le_refl _, hx⟩

theorem trans (hab : IsQuotient h a b) (hbc : IsQuotient g b c) : IsQuotient (g ∘ h) a c where
  isLive_iff q := by
    rw [hbc.isLive_iff]
    constructor
    · rintro ⟨r, hr, rfl⟩
      obtain ⟨p, hp, rfl⟩ := (hab.isLive_iff r).1 hr
      exact ⟨p, hp, rfl⟩
    · rintro ⟨p, hp, rfl⟩
      exact ⟨h p, (hab.isLive_iff _).2 ⟨p, hp, rfl⟩, rfl⟩
  fixed_or_fresh p := by
    have hsize := hab.nodes_size_le
    rcases hbc.fixed_or_fresh (h p) with hg | hg
    · rw [Function.comp_apply, hg]
      exact hab.fixed_or_fresh p
    · exact Or.inr (hsize.trans hg)
  node_kept p n hn hp := by
    have hsize : p < b.nodes.size := (Arena.lt_size_of_get? hn).trans_le hab.nodes_size_le
    have hfix : h p = p := hbc.eq_of_lt hsize hp
    obtain ⟨k, hk, hname, haccepting⟩ := hab.node_kept p n hn hfix
    rw [Function.comp_apply, hfix] at hp
    obtain ⟨j, hj, hname', haccepting'⟩ := hbc.node_kept p k hk hp
    exact ⟨j, hj, hname'.trans hname, haccepting'.trans haccepting⟩
  nodes_size_le := hab.nodes_size_le.trans hbc.nodes_size_le
  start_eq := by rw [hbc.start_eq, hab.start_eq, Function.comp_apply]
  mem_finals q := by
    rw [hbc.mem_finals]
    constructor
    · rintro ⟨r, hr, rfl⟩
      obtain ⟨p, hp, rfl⟩ := (hab.mem_finals r).1 hr
      exact ⟨p, hp, rfl⟩
    · rintro ⟨p, hp, rfl⟩
      exact ⟨h p, (hab.mem_finals _).2 ⟨p, hp, rfl⟩, rfl⟩
  edge_of e z hz := by
    obtain ⟨y, hy, rfl⟩ := hbc.edge_of e z hz
    obtain ⟨x, hx, rfl⟩ := hab.edge_of e y hy
    exact ⟨x, hx, (Edge.map_map h g x).symm⟩
  edge_kept e x hx := by
    obtain ⟨f, hf, hy⟩ := hab.edge_kept e x hx
    obtain ⟨i, hi, hz⟩ := hbc.edge_kept f _ hy
    exact ⟨i, hi.trans hf, by rw [hz, Edge.map_map]⟩

/-- Frontier and phase are no part of the structure. -/
theorem resume (k : IsQuotient h a b) (phase : Phase)
    (frontier : SortedSet NodeId) :
    IsQuotient h a { b with phase := phase, frontier := frontier } :=
  { k with }

/-! ## Paths -/

theorem arc_map (k : IsQuotient h a b) (harc : a.Arc p l q) : b.Arc (h p) l (h q) := by
  obtain ⟨e, he⟩ := harc
  obtain ⟨f, -, hf⟩ := k.edge_kept e _ he
  exact ⟨f, hf⟩

theorem exists_arc (k : IsQuotient h a b) (harc : b.Arc p l q) :
    ∃ p' q', a.Arc p' l q' ∧ h p' = p ∧ h q' = q := by
  obtain ⟨e, he⟩ := harc
  obtain ⟨⟨p', l', q'⟩, hx, hy⟩ := k.edge_of e _ he
  simp only [Edge.map, Edge.mk.injEq] at hy
  obtain ⟨hp, rfl, hq⟩ := hy
  exact ⟨p', q', ⟨e, hx⟩, hp, hq⟩

theorem arc_iff (k : IsQuotient h a b) :
    b.Arc p l q ↔ ∃ p' q', a.Arc p' l q' ∧ h p' = p ∧ h q' = q := by
  refine ⟨k.exists_arc, ?_⟩
  rintro ⟨p', q', harc, rfl, rfl⟩
  exact k.arc_map harc

theorem path_map (k : IsQuotient h a b) {w : List String} (hw : a.Path p w q) :
    b.Path (h p) w (h q) := by
  induction hw with
  | nil q => exact .nil (h q)
  | cons he _ ih => exact Path.arc_cons (k.arc_map (arc_of_edge? he)) ih

theorem accepts (k : IsQuotient h a b) {w : List String} (hw : a.Accepts w) : b.Accepts w := by
  obtain ⟨q, hq, hpath⟩ := hw
  refine ⟨h q, (k.mem_finals _).2 ⟨q, hq, rfl⟩, ?_⟩
  rw [k.start_eq]
  exact k.path_map hpath

/-! ## Nondeterminism -/

/-- The edges that leave a node which keeps its handle are images of edges that left it before. -/
theorem isNondeterministic_of_lt (k : IsQuotient h a b) (ha : a.WellFormed) (hb : b.WellFormed)
    (hq : q < a.nodes.size) (hn : b.isNondeterministic q = true) :
    a.isNondeterministic q = true := by
  obtain ⟨l, t, u, htu, ht, hu⟩ := hb.isNondeterministic_iff.1 hn
  obtain ⟨p, t', ht', hp, rfl⟩ := k.exists_arc ht
  obtain ⟨p', u', hu', hp', rfl⟩ := k.exists_arc hu
  obtain rfl := k.eq_of_lt hq hp
  obtain rfl := k.eq_of_lt hq hp'
  refine ha.isNondeterministic_iff.2 ⟨l, t', u', fun e => htu ?_, ht', hu'⟩
  rw [e]

/-! ## Sizes -/

theorem handles_eq (k : IsQuotient h a b) : b.nodes.handles = a.nodes.handles.image h := by
  ext q
  simp only [Finset.mem_image, Arena.mem_handles]
  exact k.isLive_iff q

theorem size_le (k : IsQuotient h a b) : b.size ≤ a.size := by
  rw [size_eq_card, size_eq_card, k.handles_eq]
  exact Finset.card_image_le

theorem size_lt (k : IsQuotient h a b) (hp : a.isLive p = true) (hq : a.isLive q = true)
    (hpq : p ≠ q) (e : h p = h q) : b.size < a.size := by
  refine lt_of_le_of_ne k.size_le fun hsize => hpq ?_
  rw [size_eq_card, size_eq_card, k.handles_eq, Finset.card_image_iff] at hsize
  exact hsize (Arena.mem_handles.2 hp) (Arena.mem_handles.2 hq) e

end IsQuotient

end StateMerging.Automaton
