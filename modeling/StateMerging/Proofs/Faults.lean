import StateMerging.Proofs.Checker
import StateMerging.Automaton.Ingest
import Mathlib.Data.List.Nodup

/-!
# Violations that are found are real

`Automaton.Shows a v` says that the handles of the violation `v` point at a defect of `a`, each kind
of violation at a defect of its own: a handle that is not live, a view that lists an edge too often
or not often enough, two edges that agree, a node that is accepting or final without being both.

* `not_contract_of_shows`: an automaton that shows a defect does not meet its contract.
* `shows_of_viewsFault?`, `shows_of_nodeFault?`, `shows_of_edgeFault?`: what the parts of the search
  find is shown.
* `violation?_decides_contract`: the search finds nothing exactly in the automata that meet the
  contract, and what it finds in any other one is shown there.
-/

namespace StateMerging.Automaton

variable {a : Automaton} {q : NodeId} {n : Node} {e : EdgeId} {x : Edge} {v : Violation}

/-! ## Defects -/

/-- Some view of node `q` lists the edge more or less often than the endpoints of the edge ask for:
once where it belongs, and else not at all. -/
def Misfiled (q : NodeId) (n : Node) (e : EdgeId) (x : Edge) : Prop :=
  n.edges.count e ≠ (x.incidentTo q).toNat ∨
    n.outgoing.count e ≠ (decide (x.source = q)).toNat ∨
    n.incoming.count e ≠ (decide (x.target = q)).toNat

/-- The handles of a violation point at a defect of its kind. -/
def Shows (a : Automaton) : Violation → Prop
  | .retiredStart q => q = a.start ∧ a.isLive q = false
  | .retiredFinal q => q ∈ a.finals ∧ a.isLive q = false
  -- The contract asks for no group, so that none of its violations is of this kind.
  | .retiredMergeInput _ => False
  | .retiredFrontierNode q => q ∈ a.frontier ∧ a.isLive q = false
  | .danglingEdge e q => ∃ x, a.edge? e = some x ∧ x.incidentTo q = true ∧ a.isLive q = false
  | .missingEdge q e => a.edge? e = none ∧
      ∃ n, a.node? q = some n ∧ (e ∈ n.edges ∨ e ∈ n.outgoing ∨ e ∈ n.incoming)
  | .misfiledEdge q e => ∃ n x, a.node? q = some n ∧ a.edge? e = some x ∧ Misfiled q n e x
  | .duplicateEdge e x => a.edge? e = some x ∧ ∃ f < e, a.edge? f = some x
  | .acceptingNotFinal q => q ∉ a.finals ∧ ∃ n, a.node? q = some n ∧ n.accepting = true
  | .finalNotAccepting q => q ∈ a.finals ∧ ∃ n, a.node? q = some n ∧ n.accepting = false

/-! ## Defects break the contract -/

theorem count_eq_toNat {es : List EdgeId} {b : Bool} (hn : es.Nodup) (he : e ∈ es ↔ b = true) :
    es.count e = b.toNat := by
  cases b with
  | true => exact List.count_eq_one_of_mem hn (he.2 rfl)
  | false => exact List.count_eq_zero.2 fun h => Bool.false_ne_true (he.1 h)

/-- A view that lists exactly the live edges of one kind lists each of them once. -/
theorem Filed.not_misfiled (h : a.Filed q n) (hx : a.edge? e = some x)
    (hlisted : x.incidentTo q = true → e ∈ n.edges) : ¬ Misfiled q n e x := by
  have hedges : e ∈ n.edges ↔ x.incidentTo q = true := by
    refine ⟨fun he => ?_, hlisted⟩
    obtain ⟨y, hy, hi⟩ := h.edge_of_mem e he
    exact Option.some.inj (hy.symm.trans hx) ▸ hi
  have hout : e ∈ n.outgoing ↔ decide (x.source = q) = true := by
    rw [h.mem_outgoing, hedges, Edge.incidentTo_iff]
    simp +contextual [hx]
  have hin : e ∈ n.incoming ↔ decide (x.target = q) = true := by
    rw [h.mem_incoming, hedges, Edge.incidentTo_iff]
    simp +contextual [hx]
  rintro (hc | hc | hc)
  · exact hc (count_eq_toNat h.edges_nodup hedges)
  · exact hc (count_eq_toNat h.outgoing_nodup hout)
  · exact hc (count_eq_toNat h.incoming_nodup hin)

/-- An automaton that shows a defect does not meet its contract. -/
theorem not_contract_of_shows (h : a.Shows v) : ¬ a.Contract := by
  intro ha
  cases v with
  | retiredStart q =>
    obtain ⟨rfl, hdead⟩ := h
    simp [ha.start_live] at hdead
  | retiredFinal q =>
    obtain ⟨hq, hdead⟩ := h
    obtain ⟨n, hn, -⟩ := (ha.mem_finals q).1 hq
    simp [isLive_iff.2 ⟨n, hn⟩] at hdead
  | retiredMergeInput q => exact h
  | retiredFrontierNode q =>
    obtain ⟨hq, hdead⟩ := h
    simp [ha.frontier_live q hq] at hdead
  | danglingEdge e q =>
    obtain ⟨x, hx, hi, hdead⟩ := h
    rcases Edge.incidentTo_iff.1 hi with rfl | rfl
    · simp [ha.source_live e x hx] at hdead
    · simp [ha.target_live e x hx] at hdead
  | missingEdge q e =>
    obtain ⟨hnone, n, hn, he | he | he⟩ := h
    · obtain ⟨x, hx, -⟩ := (ha.mem_edges q n hn e).1 he
      simp [hnone] at hx
    · obtain ⟨x, hx, -⟩ := (ha.mem_outgoing q n hn e).1 he
      simp [hnone] at hx
    · obtain ⟨x, hx, -⟩ := (ha.mem_incoming q n hn e).1 he
      simp [hnone] at hx
  | misfiledEdge q e =>
    obtain ⟨n, x, hn, hx, hc⟩ := h
    exact (ha.filed hn).not_misfiled hx (fun hi => (ha.mem_edges q n hn e).2 ⟨x, hx, hi⟩) hc
  | duplicateEdge e x =>
    obtain ⟨hx, f, hlt, hf⟩ := h
    exact Nat.ne_of_lt hlt (ha.edge_unique f e x hf hx)
  | acceptingNotFinal q =>
    obtain ⟨hq, hacc⟩ := h
    exact hq ((ha.mem_finals q).2 hacc)
  | finalNotAccepting q =>
    obtain ⟨hq, n, hn, hacc⟩ := h
    obtain ⟨k, hk, hacc'⟩ := (ha.mem_finals q).1 hq
    obtain rfl := Option.some.inj (hn.symm.trans hk)
    simp [hacc] at hacc'

/-! ## What is found in the views of a node -/

/-- The search through a view comes upon a handle that is not live, or upon an edge that does not
fit, or that was listed before. -/
theorem viewFault?_eq_some {fits : EdgeId → Edge → Bool} {earlier es : List EdgeId}
    (h : a.viewFault? q fits earlier es = some v) : ∃ e ∈ es,
      (a.edge? e = none ∧ v = .missingEdge q e) ∨ ∃ x, a.edge? e = some x ∧ v = .misfiledEdge q e ∧
        (fits e x = false ∨ e ∈ earlier ∨ 2 ≤ es.count e) := by
  induction es generalizing earlier with
  | nil => cases h
  | cons e es ih =>
    rw [viewFault?] at h
    cases hx : a.edge? e with
    | none =>
      simp only [hx, Option.some.injEq] at h
      exact ⟨e, List.mem_cons_self, Or.inl ⟨hx, h.symm⟩⟩
    | some x =>
      simp only [hx] at h
      split at h
      · rename_i hbad
        refine ⟨e, List.mem_cons_self, Or.inr ⟨x, hx, (Option.some.inj h).symm, ?_⟩⟩
        rw [Bool.or_eq_true, decide_eq_true_eq, Bool.not_eq_true'] at hbad
        exact hbad.elim (fun he => Or.inr (Or.inl he)) Or.inl
      · obtain ⟨f, hf, hfault⟩ := ih h
        refine ⟨f, List.mem_cons_of_mem e hf, hfault.imp_right ?_⟩
        rintro ⟨y, hy, hv, hbad⟩
        refine ⟨y, hy, hv, hbad.imp_right fun hbad => ?_⟩
        -- An edge that was listed before the rest of the view may be the first one of the view.
        rcases hbad with he | hcount
        · rcases List.mem_cons.1 he with rfl | he
          · rw [List.count_cons_self]
            exact Or.inr (Nat.succ_le_succ (List.count_pos_iff.2 hf))
          · exact Or.inl he
        · exact Or.inr (Nat.le_trans hcount List.count_le_count_cons)

theorem count_ne_toNat {es : List EdgeId} {b : Bool} (he : e ∈ es)
    (hb : b = false ∨ 2 ≤ es.count e) : es.count e ≠ b.toNat := by
  rcases hb with rfl | htwo
  · exact Nat.ne_of_gt (List.count_pos_iff.2 he)
  · exact Nat.ne_of_gt (Nat.lt_of_le_of_lt b.toNat_le htwo)

theorem count_ne_toNat_of_not_mem {es : List EdgeId} {b : Bool} (he : e ∉ es) (hb : b = true) :
    es.count e ≠ b.toNat := by
  rw [List.count_eq_zero.2 he, hb]
  exact Nat.zero_ne_one

theorem shows_of_viewFault? {fits : EdgeId → Edge → Bool} {es : List EdgeId}
    (hn : a.node? q = some n) (hes : ∀ e ∈ es, e ∈ n.edges ∨ e ∈ n.outgoing ∨ e ∈ n.incoming)
    (hbad : ∀ e ∈ es, ∀ x, fits e x = false ∨ 2 ≤ es.count e → Misfiled q n e x)
    (h : a.viewFault? q fits [] es = some v) : a.Shows v := by
  obtain ⟨e, he, ⟨hnone, rfl⟩ | ⟨x, hx, rfl, hfault⟩⟩ := viewFault?_eq_some h
  · exact ⟨hnone, n, hn, hes e he⟩
  · refine ⟨n, x, hn, hx, hbad e he x (hfault.imp_right fun hfault => ?_)⟩
    exact hfault.resolve_left List.not_mem_nil

theorem shows_of_roleFault? (hn : a.node? q = some n) (h : a.roleFault? q n = some v) :
    a.Shows v := by
  obtain ⟨e, he, hfault⟩ := List.exists_of_findSome?_eq_some h
  obtain ⟨x, hx, hrole⟩ := Option.bind_eq_some_iff.1 hfault
  split at hrole
  · rename_i hbad
    obtain rfl := Option.some.inj hrole
    have role {es : List EdgeId} {b : Bool} (hb : (b != decide (e ∈ es)) = true) :
        es.count e ≠ b.toNat := by
      by_cases hmem : e ∈ es
      · exact count_ne_toNat hmem (Or.inl (by simpa [hmem] using hb))
      · exact count_ne_toNat_of_not_mem hmem (by simpa [hmem] using hb)
    refine ⟨n, x, hn, hx, Or.inr ?_⟩
    exact (Bool.or_eq_true _ _ ▸ hbad).imp role role
  · cases hrole

/-- An edge of a directed view that does not belong there, or is listed twice, or is missing in the
view of all edges. -/
theorem count_ne_toNat_of_directed {all es : List EdgeId} {b c : Bool} (he : e ∈ es)
    (hbc : b = true → c = true) (hbad : (b && decide (e ∈ all)) = false ∨ 2 ≤ es.count e) :
    all.count e ≠ c.toNat ∨ es.count e ≠ b.toNat := by
  by_cases hmem : e ∈ all
  · exact Or.inr (count_ne_toNat he (by simpa [hmem] using hbad))
  · cases b with
    | false => exact Or.inr (count_ne_toNat he (Or.inl rfl))
    | true => exact Or.inl (count_ne_toNat_of_not_mem hmem (hbc rfl))

theorem shows_of_viewsFault? (hn : a.node? q = some n) (h : a.viewsFault? q n = some v) :
    a.Shows v := by
  simp only [viewsFault?, orElse_eq_some_iff] at h
  rcases h with h | ⟨-, h | ⟨-, h | ⟨-, h⟩⟩⟩
  · exact shows_of_viewFault? hn (fun e he => Or.inl he)
      (fun e he x hbad => Or.inl (count_ne_toNat he hbad)) h
  · refine shows_of_viewFault? hn (fun e he => Or.inr (Or.inl he)) (fun e he x hbad => ?_) h
    have hi (hs : decide (x.source = q) = true) : x.incidentTo q = true :=
      Edge.incidentTo_iff.2 (Or.inl (of_decide_eq_true hs))
    exact (count_ne_toNat_of_directed he hi hbad).imp_right Or.inl
  · refine shows_of_viewFault? hn (fun e he => Or.inr (Or.inr he)) (fun e he x hbad => ?_) h
    have hi (ht : decide (x.target = q) = true) : x.incidentTo q = true :=
      Edge.incidentTo_iff.2 (Or.inr (of_decide_eq_true ht))
    exact (count_ne_toNat_of_directed he hi hbad).imp_right Or.inr
  · exact shows_of_roleFault? hn h

/-! ## What is found elsewhere -/

theorem shows_of_finalFault? (hq : q ∈ a.finals) (h : a.finalFault? q = some v) : a.Shows v := by
  rw [finalFault?] at h
  split at h
  · rename_i hn
    obtain rfl := Option.some.inj h
    exact ⟨hq, isLive_eq_false_iff.2 hn⟩
  · rename_i n hn
    split at h
    · cases h
    · rename_i hacc
      obtain rfl := Option.some.inj h
      exact ⟨hq, n, hn, Bool.eq_false_iff.2 hacc⟩

theorem shows_of_nodeFault? (hn : a.node? q = some n) (h : a.nodeFault? q n = some v) :
    a.Shows v := by
  rcases orElse_eq_some_iff.1 h with h | ⟨-, h⟩
  · split at h
    · rename_i hacc
      obtain rfl := Option.some.inj h
      obtain ⟨hacc, hq⟩ : n.accepting = true ∧ q ∉ a.finals := by simpa using hacc
      exact ⟨hq, n, hn, hacc⟩
    · cases h
  · exact shows_of_viewsFault? hn h

theorem shows_of_endpointFault? (hx : a.edge? e = some x) (hi : x.incidentTo q = true)
    (h : a.endpointFault? e q = some v) : a.Shows v := by
  rw [endpointFault?] at h
  split at h
  · rename_i hn
    obtain rfl := Option.some.inj h
    exact ⟨x, hx, hi, isLive_eq_false_iff.2 hn⟩
  · rename_i n hn
    split at h
    · cases h
    · rename_i hmem
      obtain rfl := Option.some.inj h
      exact ⟨n, x, hn, hx, Or.inl (count_ne_toNat_of_not_mem hmem hi)⟩

theorem shows_of_repeatFault? (hx : a.edge? e = some x)
    (h : repeatFault? a.edges.entries e x = some v) : a.Shows v := by
  have hnot : repeatFault? a.edges.entries e x ≠ none := by simp [h]
  simp only [Ne, repeatFault?_eq_none_iff, not_forall, Nat.not_le, exists_prop] at hnot
  obtain ⟨f, hf, hlt⟩ := hnot
  rw [repeatFault?] at h
  split at h
  · cases h
  · obtain rfl := Option.some.inj h
    exact ⟨hx, f, hlt, Arena.mem_entries.1 hf⟩

theorem shows_of_edgeFault? (hx : a.edge? e = some x) (h : a.edgeFault? e x = some v) :
    a.Shows v := by
  simp only [edgeFault?, orElse_eq_some_iff] at h
  rcases h with h | ⟨-, h | ⟨-, h⟩⟩
  · exact shows_of_endpointFault? hx (by simp) h
  · exact shows_of_endpointFault? hx (by simp) h
  · exact shows_of_repeatFault? hx h

/-! ## The search as a whole -/

theorem shows_of_violation? (h : a.violation? = some v) : a.Shows v := by
  simp only [violation?, orElse_eq_some_iff] at h
  rcases h with h | ⟨-, h | ⟨-, h | ⟨-, h | ⟨-, h⟩⟩⟩⟩
  · split at h
    · cases h
    · rename_i hstart
      obtain rfl := Option.some.inj h
      exact ⟨rfl, Bool.eq_false_iff.2 hstart⟩
  · obtain ⟨q, hq, hfault⟩ := List.exists_of_findSome?_eq_some h
    exact shows_of_finalFault? hq hfault
  · obtain ⟨q, hfind, rfl⟩ := Option.map_eq_some_iff.1 h
    exact ⟨List.mem_of_find?_eq_some hfind, by simpa using List.find?_some hfind⟩
  · obtain ⟨⟨q, n⟩, hn, hfault⟩ := List.exists_of_findSome?_eq_some h
    exact shows_of_nodeFault? (Arena.mem_entries.1 hn) hfault
  · obtain ⟨⟨e, x⟩, hx, hfault⟩ := List.exists_of_findSome?_eq_some h
    exact shows_of_edgeFault? (Arena.mem_entries.1 hx) hfault

/-- In every automaton, broken ones included, the search finds nothing exactly if the contract is
met; the handles of a violation that it finds show a defect of its kind, and what shows a defect
breaks the contract. -/
theorem violation?_decides_contract (a : Automaton) :
    (a.violation? = none ↔ a.Contract) ∧
      (∀ v, a.violation? = some v → a.Shows v) ∧
      ∀ v, a.Shows v → ¬ a.Contract :=
  ⟨violation?_eq_none_iff, fun _ => shows_of_violation?, fun _ => not_contract_of_shows⟩

/-- The automaton of one sentence, with an edge that its source does not list among the outgoing
ones. -/
def torn : Automaton := (empty.ingest "a").modifyNode 0 ({ · with outgoing := [] })

theorem torn_shows_misfiled : torn.violation? = some (.misfiledEdge 0 0) ∧
    torn.Shows (.misfiledEdge 0 0) ∧ ¬ torn.Contract := by
  obtain ⟨-, hshown, hbreaks⟩ := violation?_decides_contract torn
  have hfound : torn.violation? = some (.misfiledEdge 0 0) := by decide +kernel
  exact ⟨hfound, hshown _ hfound, hbreaks _ (hshown _ hfound)⟩

end StateMerging.Automaton
