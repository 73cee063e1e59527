import StateMerging.Proofs.Changes

/-!
# Handles are stable and edges follow their endpoints

`Lineage r a b` says what the automaton `b` has kept of an earlier automaton `a`, each node `q` of
which is now `r q`: a handle that was given up is not issued again, a node that is still live is
itself, an edge that is still live has followed its endpoints, and an edge that is gone has a twin
under a lower handle.  A twin may be given up in its turn, and then its own twin has a lower handle
still; this is the case that `Lineage.trans` has to make.

* `lineage_grow`, `lineage_markFinal`, `lineage_merged`: each elementary change has a lineage.
* `lineage_of_run`: any later state of a run has a lineage from any earlier one, along the heirs of
  the nodes.
-/

namespace StateMerging.Automaton

variable {a b c : Automaton} {r s : NodeId → NodeId} {h : NodeId → NodeId} {q : NodeId} {t : String}

/-- The second automaton has come from the first, and node `q` has become node `r q`. -/
structure Lineage (r : NodeId → NodeId) (a b : Automaton) : Prop where
  /-- What a live node has become is live. -/
  isLive : ∀ q, a.isLive q = true → b.isLive (r q) = true
  /-- A node that is still live is itself. -/
  fixed : ∀ q, a.isLive q = true → b.isLive q = true → r q = q
  /-- A node that was retired stays retired. -/
  node_retired : ∀ q < a.nodes.size, a.isLive q = false → b.isLive q = false
  /-- An edge that was discarded stays discarded. -/
  edge_retired : ∀ e < a.edges.size, a.edge? e = none → b.edge? e = none
  /-- No node handle is given back. -/
  nodes_size_le : a.nodes.size ≤ b.nodes.size
  /-- No edge handle is given back. -/
  edges_size_le : a.edges.size ≤ b.edges.size
  /-- The start node is what the start node has become. -/
  start_eq : b.start = r a.start
  /-- What a final node has become is final. -/
  finals : ∀ q ∈ a.finals, r q ∈ b.finals
  /-- An edge that is still live has kept its label and followed its endpoints. -/
  edge_moved : ∀ e x y, a.edge? e = some x → b.edge? e = some y → y = x.map r
  /-- An edge that is gone has a twin under a lower handle. -/
  edge_replaced : ∀ e x, a.edge? e = some x → b.edge? e = none →
    ∃ f < e, b.edge? f = some (x.map r)

namespace Lineage

theorem refl (a : Automaton) : Lineage id a a where
  isLive q hq := hq
  fixed q _ _ := rfl
  node_retired q _ hq := hq
  edge_retired e _ he := he
  nodes_size_le := Nat.le_refl _
  edges_size_le := Nat.le_refl _
  start_eq := rfl
  finals q hq := hq
  edge_moved e x y hx hy := Option.some.inj (hy.symm.trans hx)
  edge_replaced e x hx hnone := by simp [hx] at hnone

/-- The image of an edge is an edge, under its handle or a lower one. -/
theorem exists_edge (k : Lineage r a b) {e : EdgeId} {x : Edge} (hx : a.edge? e = some x) :
    ∃ f ≤ e, b.edge? f = some (x.map r) := by
  cases he : b.edge? e with
  | some y => exact ⟨e, Nat.le_refl e, by rw [he, k.edge_moved e x y hx he]⟩
  | none =>
    obtain ⟨f, hf, hy⟩ := k.edge_replaced e x hx he
    exact ⟨f, Nat.le_of_lt hf, hy⟩

theorem isLive_of_later (k : Lineage r a b) (hq : q < a.nodes.size) (hb : b.isLive q = true) :
    a.isLive q = true := by
  by_contra h
  rw [k.node_retired q hq (Bool.eq_false_iff.2 h)] at hb
  cases hb

theorem trans (hab : Lineage r a b) (hbc : Lineage s b c) : Lineage (s ∘ r) a c where
  isLive q hq := hbc.isLive _ (hab.isLive q hq)
  fixed q ha hc := by
    have hlt : q < b.nodes.size := (lt_size_of_isLive ha).trans_le hab.nodes_size_le
    have hb : b.isLive q = true := hbc.isLive_of_later hlt hc
    rw [Function.comp_apply, hab.fixed q ha hb, hbc.fixed q hb hc]
  node_retired q hlt hq :=
    hbc.node_retired q (hlt.trans_le hab.nodes_size_le) (hab.node_retired q hlt hq)
  edge_retired e hlt he :=
    hbc.edge_retired e (hlt.trans_le hab.edges_size_le) (hab.edge_retired e hlt he)
  nodes_size_le := hab.nodes_size_le.trans hbc.nodes_size_le
  edges_size_le := hab.edges_size_le.trans hbc.edges_size_le
  start_eq := by rw [hbc.start_eq, hab.start_eq, Function.comp_apply]
  finals q hq := hbc.finals _ (hab.finals q hq)
  edge_moved e x z hx hz := by
    cases hy : b.edge? e with
    | some y => rw [hbc.edge_moved e y z hy hz, hab.edge_moved e x y hx hy, Edge.map_map]
    | none =>
      have hlt : e < b.edges.size := (Arena.lt_size_of_get? hx).trans_le hab.edges_size_le
      simp [hbc.edge_retired e hlt hy] at hz
  edge_replaced e x hx hnone := by
    cases hy : b.edge? e with
    | some y =>
      obtain ⟨f, hf, hz⟩ := hbc.edge_replaced e y hy hnone
      exact ⟨f, hf, by rw [hz, hab.edge_moved e x y hx hy, Edge.map_map]⟩
    | none =>
      -- The twin has a lower handle, and so has whatever stands for the twin.
      obtain ⟨f, hf, hy⟩ := hab.edge_replaced e x hx hy
      obtain ⟨i, hi, hz⟩ := hbc.exists_edge hy
      exact ⟨i, Nat.lt_of_le_of_lt hi hf, by rw [hz, Edge.map_map]⟩

/-- Frontier and phase are no part of the structure. -/
theorem resume (k : Lineage r a b) (phase : Phase) (frontier : SortedSet NodeId) :
    Lineage r a { b with phase := phase, frontier := frontier } :=
  { k with }

end Lineage

/-! ## Elementary changes -/

/-- A quotient that issues no fewer edge handles has a lineage along its map. -/
theorem IsQuotient.lineage (k : IsQuotient h a b) (hsize : a.edges.size ≤ b.edges.size) :
    Lineage h a b where
  isLive q hq := (k.isLive_iff _).2 ⟨q, hq, rfl⟩
  fixed q ha hb := by
    obtain ⟨p, -, hp⟩ := (k.isLive_iff q).1 hb
    have hpq := k.eq_of_lt (lt_size_of_isLive ha) hp
    rwa [hpq] at hp
  node_retired q hlt hq := by
    by_contra hb
    obtain ⟨p, hp, hpq⟩ := (k.isLive_iff q).1 (Bool.not_eq_false _ ▸ hb)
    rw [k.eq_of_lt hlt hpq, hq] at hp
    cases hp
  edge_retired e _ he := by
    rw [Option.eq_none_iff_forall_not_mem]
    intro y hy
    obtain ⟨x, hx, -⟩ := k.edge_of e y hy
    simp [he] at hx
  nodes_size_le := k.nodes_size_le
  edges_size_le := hsize
  start_eq := k.start_eq
  finals q hq := (k.mem_finals _).2 ⟨q, hq, rfl⟩
  edge_moved e x y hx hy := by
    obtain ⟨z, hz, rfl⟩ := k.edge_of e y hy
    rw [Option.some.inj (hz.symm.trans hx)]
  edge_replaced e x hx hnone := by
    obtain ⟨f, hf, hy⟩ := k.edge_kept e x hx
    refine ⟨f, Nat.lt_of_le_of_ne hf ?_, hy⟩
    intro hfe
    rw [hfe, hnone] at hy
    cases hy

@[simp] theorem edges_size_merged (a : Automaton) (group : SortedSet NodeId) :
    (a.merged group).edges.size = a.edges.size := by
  simp [merged, retire, rewire]

@[simp] theorem nodes_size_grow : (a.grow q t).nodes.size = a.nodes.size + 1 := by
  unfold grow addEdge
  split <;> simp [addFreshNode, pushNode]

@[simp] theorem edges_size_grow : (a.grow q t).edges.size = a.edges.size + 1 := by
  simp [grow, addEdge, addFreshNode, pushNode]

@[simp] theorem nodes_size_markFinal : (a.markFinal q).nodes.size = a.nodes.size := by
  unfold markFinal
  split <;> simp [modifyNode]

@[simp] theorem edges_size_markFinal : (a.markFinal q).edges.size = a.edges.size := by
  unfold markFinal
  split <;> rfl

theorem lineage_merged {group : SortedSet NodeId} (ha : a.WellFormed)
    (hg : ∀ q ∈ group, a.isLive q = true) (htwo : 2 ≤ group.size) :
    Lineage (a.freshen group) a (a.merged group) := by
  obtain ⟨p, hp, -⟩ := SortedSet.one_lt_size_iff.1 htwo
  exact (ha.isQuotient_merged hg ⟨p, hp⟩).lineage (by simp)

theorem lineage_grow (a : Automaton) (q : NodeId) (t : String) : Lineage id a (a.grow q t) where
  isLive p hp := isLive_grow_iff.2 (Or.inr hp)
  fixed p _ _ := rfl
  node_retired p hlt hp := by
    by_contra hb
    rcases isLive_grow_iff.1 (Bool.not_eq_false _ ▸ hb) with rfl | hlive
    · exact Nat.lt_irrefl _ hlt
    · simp [hp] at hlive
  edge_retired e hlt he := by rw [edge?_grow, if_neg (Nat.ne_of_lt hlt), he]
  nodes_size_le := by simp
  edges_size_le := by simp
  start_eq := rfl
  finals p hp := hp
  edge_moved e x y hx hy := by
    rw [edge?_grow, if_neg (Nat.ne_of_lt (Arena.lt_size_of_get? hx)), hx] at hy
    exact (Option.some.inj hy).symm
  edge_replaced e x hx hnone := by
    rw [edge?_grow, if_neg (Nat.ne_of_lt (Arena.lt_size_of_get? hx)), hx] at hnone
    cases hnone

theorem lineage_markFinal (a : Automaton) (q : NodeId) : Lineage id a (a.markFinal q) where
  isLive p hp := by rwa [isLive_markFinal]
  fixed p _ _ := rfl
  node_retired p _ hp := by rwa [isLive_markFinal]
  edge_retired e _ he := by rwa [edge?_markFinal]
  nodes_size_le := by simp
  edges_size_le := by simp
  start_eq := (a.markFinal_fields q).1
  finals p hp := (mem_finals_markFinal a q p).2 (Or.inr hp)
  edge_moved e x y hx hy := by
    rw [edge?_markFinal, hx] at hy
    exact (Option.some.inj hy).symm
  edge_replaced e x hx hnone := by
    rw [edge?_markFinal, hx] at hnone
    cases hnone

/-! ## Runs -/

theorem Merges.lineage (k : Merges h a b) (ha : a.WellFormed) : Lineage h a b := by
  induction k with
  | refl a => exact .refl a
  | merge k live two ih => exact (ih ha).trans (lineage_merged (k.wellFormed ha) live two)
  | resume _ phase frontier ih => exact (ih ha).resume phase frontier

theorem Grows.lineage (k : Grows a b) : Lineage id a b := by
  induction k with
  | refl => exact .refl a
  | grow _ _ _ ih => exact ih.trans (lineage_grow _ _ _)
  | mark _ q ih => exact ih.trans (lineage_markFinal _ q)

theorem Coherent.lineage_perform (ha : a.Coherent) (x : Action) :
    Lineage (fun q => a.heirOf q x) a (a.perform x) := by
  rcases ha.perform_cases x with ⟨hid, k⟩ | k
  · rw [hid]
    exact k.lineage
  · exact k.lineage ha.toWellFormed

theorem Coherent.lineage_performAll (ha : a.Coherent) (actions : List Action) :
    Lineage (a.heirAll actions) a (a.performAll actions) := by
  induction actions generalizing a with
  | nil => exact .refl a
  | cons x actions ih => exact (ha.lineage_perform x).trans (ih (ha.perform x))

/-- Of two states of a run, the later one has come from the earlier one, each node of which has
become its heir. -/
theorem lineage_of_run (earlier later : List Action) :
    Lineage ((empty.performAll earlier).heirAll later) (empty.performAll earlier)
      (empty.performAll (earlier ++ later)) := by
  rw [performAll_append]
  exact (coherent_performAll earlier).lineage_performAll later

end StateMerging.Automaton
