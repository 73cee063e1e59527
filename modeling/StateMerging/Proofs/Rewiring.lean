import StateMerging.Automaton.Ingest
import StateMerging.Proofs.Fusion
import Mathlib.Data.List.Find

/-!
# Rewiring in place

`Automaton.rewire` says in one equation what a merge makes of the edges at the members of a group.
This module visits these edges one after the other, in ascending order, and changes each in place:
its endpoints in the group become the fresh node, and the edge is filed there, unless it agrees with
an edge that was filed before; such an edge is dropped.

`Automaton.rewireWith` is the closed form with the visited edges as an argument.  Visiting one more
edge extends the argument (`dropEdge_rewireWith`, `placeEdge_rewireWith`).

* `rewireEdges_eq`: the visits add up to the closed form, for every automaton and every group.
* `fuse_eq_fuseInPlace`: so does the whole replacement of a group of live nodes, and
  `merge_eq_mergeInPlace` that this is what a merge does.

In a well-formed automaton what they leave is the quotient.
-/

namespace StateMerging.Automaton

variable {a : Automaton} {group : SortedSet NodeId} {l : List (EdgeId × Edge)} {q : NodeId}
  {e f : EdgeId} {x y : Edge} {h : NodeId → NodeId}

/-! ## Visiting edges -/

/-- The endpoints of an edge that are not in the group. -/
def outside (group : SortedSet NodeId) (x : Edge) : List NodeId :=
  ([x.source, x.target].filter (· ∉ group)).dedup

/-- Takes an edge out of the views of its endpoints outside the group, and erases it. -/
def dropEdge (a : Automaton) (group : SortedSet NodeId) (e : EdgeId) (x : Edge) : Automaton :=
  { a with
    nodes := (outside group x).foldl (fun nodes q => nodes.modify q (·.detach e)) a.nodes
    edges := a.edges.erase e }

/-- Gives an edge its new endpoints, and files it at `m`. -/
def placeEdge (a : Automaton) (m : NodeId) (e : EdgeId) (y : Edge) : Automaton :=
  { a with
    nodes := a.nodes.modify m (·.attach m e y)
    edges := a.edges.modify e fun _ => y }

/-- Visits edges one after the other, up to the first handle that is not live, which is the answer.
The edges that were filed at `m` so far are `placed`. -/
def rewireEdges (a : Automaton) (group : SortedSet NodeId) (m : NodeId) (placed : List Edge) :
    List EdgeId → Option EdgeId × Automaton
  | [] => (none, a)
  | e :: es =>
    match a.edge? e with
    | none => (some e, a)
    | some x =>
      let y := x.map (collapse group m)
      if y ∈ placed then (a.dropEdge group e x).rewireEdges group m placed es
      else (a.placeEdge m e y).rewireEdges group m (y :: placed) es

/-- Replaces a group of live nodes by a fresh node, visiting the edges at the members. -/
def fuseInPlace (a : Automaton) (group : SortedSet NodeId) : Outcome NodeId :=
  let m := a.nodes.size
  let members := a.members group
  let b := a.pushNode (",".intercalate (members.map (·.name))) (members.any (·.accepting))
  match b.rewireEdges group m [] (a.touched group).toList with
  | (some e, c) =>
    let holder := group.toList.find? fun q => (c.node? q).any (e ∈ ·.edges)
    ⟨.error (.missingEdge (holder.getD m) e), c⟩
  | (none, c) =>
    let d := group.toList.foldl removeNode c
    let d := if a.start ∈ group then { d with start := m } else d
    let d := if group.toList.any (· ∈ a.finals) then { d with finals := d.finals.insert m } else d
    match d.mergeFault? group m with
    | some v => ⟨.error v, d⟩
    | none => ⟨.ok m, d⟩

/-! ## The closed form after some visits -/

/-- The edges of a list with the endpoints that `h` gives them. -/
def mapped (h : NodeId → NodeId) (l : List (EdgeId × Edge)) : List (EdgeId × Edge) :=
  l.map fun (e, x) => (e, x.map h)

/-- The edges that agree with an earlier one under `h`, with their old endpoints. -/
def dropped (h : NodeId → NodeId) (l : List (EdgeId × Edge)) : List (EdgeId × Edge) :=
  l.filter fun (e, x) => !isFirst (mapped h l) e (x.map h)

/-- The edges that agree with no earlier one under `h`, with their new endpoints. -/
def kept (h : NodeId → NodeId) (l : List (EdgeId × Edge)) : List (EdgeId × Edge) :=
  (mapped h l).filter fun (e, x) => isFirst (mapped h l) e x

/-- The fresh node after the edges of a list were visited. -/
def replacementWith (a : Automaton) (group : SortedSet NodeId) (l : List (EdgeId × Edge)) : Node :=
  let m := a.nodes.size
  let blank : Node :=
    ⟨",".intercalate ((a.members group).map (·.name)), (a.members group).any (·.accepting),
      [], [], []⟩
  (kept (collapse group m) l).foldl (fun n (e, x) => n.attach m e x) blank

/-- The automaton after the edges of a list were visited. -/
def rewireWith (a : Automaton) (group : SortedSet NodeId) (l : List (EdgeId × Edge)) : Automaton :=
  let h := a.freshen group
  { a with
    nodes := (a.nodes.filterMap fun q n =>
      some (if q ∈ group then n
        else n.without (((dropped h l).filter (·.2.incidentTo q)).map (·.1)))).insert
          (a.replacementWith group l)
    edges := a.edges.filterMap fun e x =>
      if (mapped h l).any (·.1 = e) then
        if isFirst (mapped h l) e (x.map h) then some (x.map h) else none
      else some x }

theorem rewire_eq_rewireWith (a : Automaton) (group : SortedSet NodeId) :
    a.rewire group = a.rewireWith group (a.moved group) := rfl

/-! ## One more edge -/

theorem isFirst_append_of_lt (hf : f < e) :
    isFirst (l ++ [(e, y)]) f x = isFirst l f x := by
  simp [isFirst, Nat.not_lt_of_lt hf]

theorem isFirst_mapped_iff (hl : ∀ p ∈ l, p.1 < e) :
    isFirst (mapped h l ++ [(e, y)]) e y = true ↔ ∀ p ∈ l, p.2.map h ≠ y := by
  simp only [isFirst, mapped, List.any_append, List.any_map, List.any_cons, List.any_nil,
    Nat.lt_irrefl, decide_false, Bool.false_and, Bool.or_false, Bool.not_eq_true',
    List.any_eq_false, Function.comp_apply, Bool.and_eq_true, decide_eq_true_eq, not_and]
  exact forall₂_congr fun p hp => ⟨fun k => k (hl p hp), fun k _ => k⟩

theorem mapped_append : mapped h (l ++ [(e, x)]) = mapped h l ++ [(e, x.map h)] :=
  List.map_append

theorem fst_lt_of_mem_mapped (hl : ∀ p ∈ l, p.1 < e) {p : EdgeId × Edge} (hp : p ∈ mapped h l) :
    p.1 < e := by
  obtain ⟨r, hr, rfl⟩ := List.mem_map.1 hp
  exact hl r hr

/-- Edges of lower handles stay among the dropped ones. -/
theorem dropped_append (hl : ∀ p ∈ l, p.1 < e) : dropped h (l ++ [(e, x)]) =
    dropped h l ++ if isFirst (mapped h (l ++ [(e, x)])) e (x.map h) then [] else [(e, x)] := by
  rw [dropped, List.filter_append]
  congr 1
  · refine List.filter_congr fun (f, z) hp => ?_
    simp only [mapped_append, isFirst_append_of_lt (hl _ hp)]
  · simp only [List.filter_cons, List.filter_nil]
    cases isFirst (mapped h (l ++ [(e, x)])) e (x.map h) <;> rfl

theorem kept_append (hl : ∀ p ∈ l, p.1 < e) : kept h (l ++ [(e, x)]) =
    kept h l ++
      if isFirst (mapped h (l ++ [(e, x)])) e (x.map h) then [(e, x.map h)] else [] := by
  rw [kept, mapped_append, List.filter_append]
  congr 1
  · refine List.filter_congr fun (f, z) hp => ?_
    simp only [isFirst_append_of_lt (fst_lt_of_mem_mapped hl hp)]
  · simp only [List.filter_cons, List.filter_nil]

theorem replacementWith_eq (a : Automaton) (group : SortedSet NodeId) (l : List (EdgeId × Edge)) :
    a.replacementWith group l =
      { name := ",".intercalate ((a.members group).map (·.name))
        accepting := (a.members group).any (·.accepting)
        edges := ((kept (a.freshen group) l).filter (·.2.incidentTo a.nodes.size)).map (·.1)
        outgoing := ((kept (a.freshen group) l).filter (·.2.source = a.nodes.size)).map (·.1)
        incoming := ((kept (a.freshen group) l).filter (·.2.target = a.nodes.size)).map (·.1) } :=
  Node.foldl_attach _ _ _

/-- A visited edge is filed at the fresh node, unless it agrees with an earlier one. -/
theorem replacementWith_append (hl : ∀ p ∈ l, p.1 < e) :
    a.replacementWith group (l ++ [(e, x)]) =
      if isFirst (mapped (a.freshen group) (l ++ [(e, x)])) e (x.map (a.freshen group)) then
        (a.replacementWith group l).attach a.nodes.size e (x.map (a.freshen group))
      else a.replacementWith group l := by
  rw [replacementWith, kept_append hl, List.foldl_append]
  split <;> rfl

/-- The fresh node lists visited edges only. -/
theorem detach_replacementWith (hl : ∀ p ∈ l, p.1 < e) :
    (a.replacementWith group l).detach e = a.replacementWith group l := by
  have fresh (p : EdgeId × Edge) (hp : p ∈ kept (a.freshen group) l) : p.1 ≠ e :=
    Nat.ne_of_lt (fst_lt_of_mem_mapped hl (List.mem_of_mem_filter hp))
  have absent (kind : Edge → Bool) :
      e ∉ ((kept (a.freshen group) l).filter (kind ·.2)).map (·.1) := by
    intro he
    obtain ⟨p, hp, rfl⟩ := List.mem_map.1 he
    exact fresh p (List.mem_of_mem_filter hp) rfl
  rw [replacementWith_eq]
  exact Node.detach_eq_self (absent (·.incidentTo a.nodes.size))
    (absent (·.source = a.nodes.size)) (absent (·.target = a.nodes.size))

/-! ## The views of the closed form -/

theorem nodes_size_rewireWith : (a.rewireWith group l).nodes.size = a.nodes.size + 1 := by
  simp [rewireWith]

theorem nodes_get?_rewireWith (q : NodeId) : (a.rewireWith group l).nodes.get? q =
    if q = a.nodes.size then some (a.replacementWith group l)
    else (a.nodes.get? q).map fun n =>
      if q ∈ group then n
      else n.without (((dropped (a.freshen group) l).filter (·.2.incidentTo q)).map (·.1)) := by
  simp only [rewireWith, Arena.get?_insert, Arena.size_filterMap, Arena.get?_filterMap,
    Option.map_eq_bind]
  rfl

theorem edges_get?_rewireWith (e : EdgeId) : (a.rewireWith group l).edges.get? e =
    (a.edges.get? e).bind fun x =>
      if (mapped (a.freshen group) l).any (·.1 = e) then
        if isFirst (mapped (a.freshen group) l) e (x.map (a.freshen group)) then
          some (x.map (a.freshen group))
        else none
      else some x := Arena.get?_filterMap ..

theorem any_mapped_iff :
    (mapped h l).any (·.1 = f) = true ↔ ∃ p ∈ l, p.1 = f := by
  simp [mapped]

/-- An edge that was not visited is as it was. -/
theorem edges_get?_rewireWith_of_lt (hl : ∀ p ∈ l, p.1 < e) :
    (a.rewireWith group l).edges.get? e = a.edges.get? e := by
  have hnone : ¬ (mapped (a.freshen group) l).any (·.1 = e) = true := by
    rw [any_mapped_iff]
    rintro ⟨p, hp, rfl⟩
    exact Nat.lt_irrefl _ (hl p hp)
  simp only [edges_get?_rewireWith, if_neg hnone]
  exact Option.bind_fun_some _

theorem edges_get?_rewireWith_append (hl : ∀ p ∈ l, p.1 < e) (hx : a.edge? e = some x)
    (f : EdgeId) : (a.rewireWith group (l ++ [(e, x)])).edges.get? f =
      if e = f then
        if isFirst (mapped (a.freshen group) (l ++ [(e, x)])) e (x.map (a.freshen group)) then
          some (x.map (a.freshen group))
        else none
      else (a.rewireWith group l).edges.get? f := by
  rw [edges_get?_rewireWith]
  by_cases hef : e = f
  · subst hef
    have hvisited : (mapped (a.freshen group) (l ++ [(e, x)])).any (·.1 = e) = true :=
      any_mapped_iff.2 ⟨(e, x), by simp, rfl⟩
    rw [show a.edges.get? e = some x from hx, Option.bind_some, if_pos hvisited, if_pos rfl]
  · have hany : (mapped (a.freshen group) (l ++ [(e, x)])).any (·.1 = f) =
        (mapped (a.freshen group) l).any (·.1 = f) := by
      simp [mapped_append, hef]
    rw [if_neg hef, edges_get?_rewireWith, hany]
    refine congrArg _ (funext fun z => ite_congr rfl (fun hvisited => ?_) fun _ => rfl)
    obtain ⟨p, hp, rfl⟩ := any_mapped_iff.1 hvisited
    rw [mapped_append, isFirst_append_of_lt (hl p hp)]

/-! ## One more visit -/

theorem mem_outside : q ∈ outside group x ↔ x.incidentTo q = true ∧ q ∉ group := by
  rw [outside, List.mem_dedup, List.mem_filter, Edge.incidentTo_iff]
  simp [eq_comm (a := q)]

/-- Dropping an edge that agrees with one that was visited before. -/
theorem dropEdge_rewireWith (hl : ∀ p ∈ l, p.1 < e) (hx : a.edge? e = some x)
    (hdup : ∃ p ∈ l, p.2.map (a.freshen group) = x.map (a.freshen group)) :
    (a.rewireWith group l).dropEdge group e x = a.rewireWith group (l ++ [(e, x)]) := by
  have hfirst : isFirst (mapped (a.freshen group) (l ++ [(e, x)])) e (x.map (a.freshen group)) =
      false := by
    rw [mapped_append, ← Bool.not_eq_true, isFirst_mapped_iff hl]
    obtain ⟨p, hp, heq⟩ := hdup
    exact fun hall => hall p hp heq
  have hnodes : ((a.rewireWith group l).dropEdge group e x).nodes =
      (a.rewireWith group (l ++ [(e, x)])).nodes := by
    refine Arena.ext_get? (by simp [dropEdge, nodes_size_rewireWith]) fun q => ?_
    rw [dropEdge, Arena.get?_foldl_modify fun n => n.detach_detach e, nodes_get?_rewireWith,
      nodes_get?_rewireWith, replacementWith_append hl, dropped_append hl, hfirst]
    by_cases hq : q = a.nodes.size
    · -- An edge can end in the handle that the fresh node got; the node does not list it yet.
      simp [hq, detach_replacementWith hl]
    · cases a.nodes.get? q with
      | none => simp [hq]
      | some n =>
        by_cases hmem : q ∈ group
        · simp [hq, hmem, mem_outside]
        · cases hi : x.incidentTo q <;>
            simp [hq, hmem, mem_outside, hi, Node.detach, Node.without_without]
  have hedges : ((a.rewireWith group l).dropEdge group e x).edges =
      (a.rewireWith group (l ++ [(e, x)])).edges := by
    refine Arena.ext_get? (by simp [dropEdge, rewireWith]) fun f => ?_
    rw [edges_get?_rewireWith_append hl hx, hfirst]
    exact Arena.get?_erase ..
  simp only [dropEdge] at hnodes hedges ⊢
  rw [hnodes, hedges]
  rfl

/-- Placing an edge that agrees with none that was visited before. -/
theorem placeEdge_rewireWith (hl : ∀ p ∈ l, p.1 < e) (hx : a.edge? e = some x)
    (hnew : ∀ p ∈ l, p.2.map (a.freshen group) ≠ x.map (a.freshen group)) :
    (a.rewireWith group l).placeEdge a.nodes.size e (x.map (a.freshen group)) =
      a.rewireWith group (l ++ [(e, x)]) := by
  have hfirst : isFirst (mapped (a.freshen group) (l ++ [(e, x)])) e (x.map (a.freshen group)) =
      true := by
    rw [mapped_append, isFirst_mapped_iff hl]
    exact hnew
  have hnodes : ((a.rewireWith group l).placeEdge a.nodes.size e (x.map (a.freshen group))).nodes =
      (a.rewireWith group (l ++ [(e, x)])).nodes := by
    refine Arena.ext_get? (by simp [placeEdge, nodes_size_rewireWith]) fun q => ?_
    rw [placeEdge, Arena.get?_modify, nodes_get?_rewireWith, nodes_get?_rewireWith,
      replacementWith_append hl, dropped_append hl, hfirst]
    by_cases hq : q = a.nodes.size
    · simp [hq]
    · simp [hq, Ne.symm hq]
  have hedges : ((a.rewireWith group l).placeEdge a.nodes.size e (x.map (a.freshen group))).edges =
      (a.rewireWith group (l ++ [(e, x)])).edges := by
    refine Arena.ext_get? (by simp [placeEdge, rewireWith]) fun f => ?_
    rw [edges_get?_rewireWith_append hl hx, hfirst, placeEdge, Arena.get?_modify]
    refine ite_congr rfl (fun hef => ?_) fun _ => rfl
    rw [← hef, edges_get?_rewireWith_of_lt hl, show a.edges.get? e = some x from hx]
    rfl
  simp only [placeEdge] at hnodes hedges ⊢
  rw [hnodes, hedges]
  rfl

/-! ## All visits -/

/-- The live edges of a list of handles, up to the first handle that is not live. -/
def visited (a : Automaton) (es : List EdgeId) : List (EdgeId × Edge) :=
  (es.takeWhile a.edges.isLive).filterMap fun e => (a.edge? e).map (e, ·)

theorem visited_cons_of_some (hx : a.edge? e = some x) (es : List EdgeId) :
    a.visited (e :: es) = (e, x) :: a.visited es := by
  have hlive : a.edges.isLive e = true := Arena.isLive_iff.2 ⟨x, hx⟩
  simp [visited, hlive, hx]

theorem visited_cons_of_none (hx : a.edge? e = none) (es : List EdgeId) :
    a.visited (e :: es) = [] := by
  have hlive : a.edges.isLive e = false := by simpa [Arena.isLive, edge?] using hx
  simp [visited, hlive]

/-- After the edges of `l` the visits go on with those of `es`; the edges placed so far are the
images of the edges of `l`. -/
theorem rewireEdges_rewireWith {es : List EdgeId} {ys : List Edge} (hes : es.Pairwise (· < ·))
    (hl : ∀ p ∈ l, ∀ e ∈ es, p.1 < e)
    (hys : ∀ y, y ∈ ys ↔ ∃ p ∈ l, p.2.map (a.freshen group) = y) :
    (a.rewireWith group l).rewireEdges group a.nodes.size ys es =
      (es.find? fun e => !a.edges.isLive e, a.rewireWith group (l ++ a.visited es)) := by
  -- The handles ascend, so an edge that is visited was not changed by the visits before it.
  induction es generalizing l ys with
  | nil => simp [rewireEdges, visited]
  | cons e es ih =>
    have hle : ∀ p ∈ l, p.1 < e := fun p hp => hl p hp e List.mem_cons_self
    have hedge : (a.rewireWith group l).edge? e = a.edge? e := edges_get?_rewireWith_of_lt hle
    rw [List.pairwise_cons] at hes
    cases hx : a.edge? e with
    | none =>
      have hlive : a.edges.isLive e = false := by simpa [Arena.isLive, edge?] using hx
      simp [rewireEdges, hedge, hx, visited_cons_of_none hx, hlive]
    | some x =>
      have hlive : a.edges.isLive e = true := Arena.isLive_iff.2 ⟨x, hx⟩
      have hl' : ∀ p ∈ l ++ [(e, x)], ∀ f ∈ es, p.1 < f := by
        intro p hp f hf
        rcases List.mem_append.1 hp with hp | hp
        · exact hl p hp f (List.mem_cons_of_mem e hf)
        · obtain rfl := List.mem_singleton.1 hp
          exact hes.1 f hf
      rw [visited_cons_of_some hx, List.append_cons, List.find?_cons_of_neg (by simp [hlive])]
      have hys' (y) : (∃ p ∈ l ++ [(e, x)], p.2.map (a.freshen group) = y) ↔
          y = x.map (a.freshen group) ∨ y ∈ ys := by
        simp [hys, or_and_right, exists_or, or_comm, eq_comm (a := y)]
      simp only [rewireEdges, hedge, hx]
      split
      · rename_i hdup
        rw [dropEdge_rewireWith hle hx ((hys _).1 hdup)]
        refine ih hes.2 hl' fun y => ?_
        rw [hys', or_iff_right_of_imp]
        rintro rfl
        exact hdup
      · rename_i hnew
        have hnew : ∀ p ∈ l, p.2.map (a.freshen group) ≠ x.map (a.freshen group) :=
          fun p hp heq => hnew ((hys _).2 ⟨p, hp, heq⟩)
        rw [placeEdge_rewireWith hle hx hnew]
        refine ih hes.2 hl' fun y => ?_
        rw [hys', List.mem_cons]

/-- Before the first visit only the fresh node is there. -/
theorem rewireWith_nil (a : Automaton) (group : SortedSet NodeId) : a.rewireWith group [] =
    a.pushNode (",".intercalate ((a.members group).map (·.name)))
      ((a.members group).any (·.accepting)) := by
  simp [rewireWith, mapped, dropped, replacementWith_eq, kept, pushNode, Arena.filterMap_some]

/-- Visiting the edges at the members makes the closed form, for every automaton and every group;
the answer is the first handle that is not live. -/
theorem rewireEdges_eq (a : Automaton) (group : SortedSet NodeId) :
    (a.pushNode (",".intercalate ((a.members group).map (·.name)))
      ((a.members group).any (·.accepting))).rewireEdges group a.nodes.size []
        (a.touched group).toList =
      ((a.touched group).toList.find? fun e => !a.edges.isLive e, a.rewire group) := by
  have hascending : (a.touched group).toList.Pairwise (· < ·) :=
    (a.touched group).ascending.imp Nat.compare_eq_lt.1
  rw [← rewireWith_nil, rewireEdges_rewireWith hascending (by simp) (by simp)]
  rfl

/-! ## The replacement of a group -/

theorem foldl_removeNode (a : Automaton) (qs : List NodeId) : qs.foldl removeNode a =
    { a with
      nodes := a.nodes.filterMap fun q n => if q ∈ qs then none else some n
      finals := a.finals.filter (· ∉ qs) } := by
  induction qs generalizing a with
  | nil =>
    have hfinals : a.finals.filter (fun _ => true) = a.finals :=
      SortedSet.ext_mem fun p => by simp
    simp [hfinals]
  | cons q qs ih =>
    have hnodes : (a.nodes.erase q).filterMap (fun q n => if q ∈ qs then none else some n) =
        a.nodes.filterMap fun p n => if p ∈ q :: qs then none else some n := by
      refine Arena.ext_get? (by simp) fun p => ?_
      by_cases hp : q = p
      · subst hp
        cases a.nodes.get? q <;> simp [Arena.get?_erase]
      · simp [Arena.get?_erase, hp, Ne.symm hp]
    have hfinals : (a.finals.erase q).filter (· ∉ qs) = a.finals.filter (· ∉ q :: qs) :=
      SortedSet.ext_mem fun p => by simp [and_assoc]
    rw [List.foldl_cons, ih, removeNode, hnodes, hfinals]

/-- The members stay as they are until all edges are rewired. -/
theorem node?_rewire_of_mem (hg : ∀ q ∈ group, a.isLive q = true) (hq : q ∈ group) :
    (a.rewire group).node? q = a.node? q := by
  rw [rewire_eq_rewireWith, node?, nodes_get?_rewireWith, if_neg (ne_size_of_isLive (hg q hq))]
  simp [hq, node?]

theorem missingFault?_eq (hg : ∀ q ∈ group, a.isLive q = true) : a.missingFault? group =
    ((a.touched group).toList.find? fun e => !a.edges.isLive e).map fun e =>
      let holder := group.toList.find? fun q => ((a.rewire group).node? q).any (e ∈ ·.edges)
      .missingEdge (holder.getD a.nodes.size) e := by
  refine congrArg (Option.map · _) (funext fun e => ?_)
  have hholder : (group.toList.find? fun q => (a.node? q).any (e ∈ ·.edges)) =
      group.toList.find? fun q => ((a.rewire group).node? q).any (e ∈ ·.edges) :=
    List.find?_congr fun q hq => by rw [node?_rewire_of_mem hg hq]
  rw [hholder]

theorem retire_eq (b : Automaton) (group : SortedSet NodeId) (m : NodeId) : b.retire group m =
    let d := group.toList.foldl removeNode b
    let d := if b.start ∈ group then { d with start := m } else d
    if group.toList.any (· ∈ b.finals) then { d with finals := d.finals.insert m } else d := by
  have hany : b.finals.toList.any (· ∈ group) = group.toList.any (· ∈ b.finals) := by
    rw [Bool.eq_iff_iff]
    simp [SortedSet.mem_toList, and_comm]
  rw [foldl_removeNode, retire, hany, collapse]
  simp only [SortedSet.mem_toList]
  split <;> split <;> rfl

/-- A merge replaces a group of live nodes in place. -/
theorem fuse_eq_fuseInPlace (hg : ∀ q ∈ group, a.isLive q = true) :
    a.fuse group = a.fuseInPlace group := by
  rw [fuse, fuseInPlace, missingFault?_eq hg, retire_eq, rewireEdges_eq]
  cases (a.touched group).toList.find? fun e => !a.edges.isLive e with
  | none => rfl
  | some e => rfl

/-- Merges a group of nodes, visiting the edges at the members. -/
def mergeInPlace (a : Automaton) (group : SortedSet NodeId) : Outcome (Option NodeId) :=
  match group.toList.find? fun q => !a.isLive q with
  | some q => ⟨.error (.retiredMergeInput q), a⟩
  | none =>
    if group.size < 2 then ⟨.ok group.min?, a⟩
    else
      let o := a.fuseInPlace group
      ⟨o.result.map some, o.after⟩

theorem merge_eq_mergeInPlace (a : Automaton) (group : SortedSet NodeId) :
    a.merge group = a.mergeInPlace group := by
  rw [merge, mergeInPlace]
  cases hfind : group.toList.find? fun q => !a.isLive q with
  | some q => rfl
  | none =>
    have hg : ∀ q ∈ group, a.isLive q = true := by
      intro q hq
      simpa using List.find?_eq_none.1 hfind q hq
    rw [fuse_eq_fuseInPlace hg]

/-! ## The quotient -/

/-- The merge of at least two live nodes succeeds, and visiting their edges makes the quotient along
the map `freshen` that sends the members to a fresh node: nodes, edges, start node and final nodes
are the images.  An edge stays under its handle, unless an edge of a lower handle has the same
image.  The fresh node joins the names of the members in ascending order, and is accepting if one of
them is; every other node keeps its name and its acceptance, and its views lose the edges that are
gone.  Frontier, phase and the next name stay, and the contract holds again, the frontier aside. -/
theorem merge_makes_quotient (ha : a.WellFormed) (hg : ∀ q ∈ group, a.isLive q = true)
    (htwo : 2 ≤ group.size) :
    ∃ b, a.merge group = ⟨.ok (some a.nodes.size), b⟩ ∧
      a.fuseInPlace group = ⟨.ok a.nodes.size, b⟩ ∧
      (∀ q, b.isLive q = true ↔ ∃ p, a.isLive p = true ∧ a.freshen group p = q) ∧
      (∀ p l q, b.Arc p l q ↔
        ∃ p' q', a.Arc p' l q' ∧ a.freshen group p' = p ∧ a.freshen group q' = q) ∧
      (∀ e y, b.edge? e = some y ↔
        ∃ x, a.edge? e = some x ∧ a.Survives (a.freshen group) e x ∧ x.map (a.freshen group) = y) ∧
      b.start = a.freshen group a.start ∧
      (∀ q, q ∈ b.finals ↔ ∃ p ∈ a.finals, a.freshen group p = q) ∧
      (∃ n, b.node? a.nodes.size = some n ∧
        n.name = ",".intercalate ((group.toList.filterMap a.node?).map (·.name)) ∧
        (n.accepting = true ↔ ∃ q ∈ group, ∃ k, a.node? q = some k ∧ k.accepting = true)) ∧
      (∀ q n, a.node? q = some n → q ∉ group → b.node? q = some
        { n with
          edges := n.edges.filter b.edges.isLive
          outgoing := n.outgoing.filter b.edges.isLive
          incoming := n.incoming.filter b.edges.isLive }) ∧
      b.frontier = a.frontier ∧ b.phase = a.phase ∧ b.nextName = a.nextName ∧ b.WellFormed := by
  obtain ⟨p, hp, -⟩ := SortedSet.one_lt_size_iff.1 htwo
  have k := ha.isQuotient_merged hg ⟨p, hp⟩
  refine ⟨a.merged group, ha.merge_eq hg htwo,
    (fuse_eq_fuseInPlace hg).symm.trans (ha.fuse_eq hg ⟨p, hp⟩), k.isLive_iff,
    fun p l q => k.arc_iff, fun e y => ha.edge?_merged hg, k.start_eq, k.mem_finals, ?_,
    fun q n hn hq => ha.node?_merged_eq hg hn hq, rfl, rfl, rfl, ha.merged hg ⟨p, hp⟩⟩
  refine ⟨_, node?_merged_fresh (size_not_mem hg), by rw [replacement_eq]; rfl, ?_⟩
  rw [ha.accepting_replacement]
  constructor
  · rintro ⟨q, hq, hmem⟩
    exact ⟨q, hmem, (ha.mem_finals q).1 hq⟩
  · rintro ⟨q, hmem, hacc⟩
    exact ⟨q, (ha.mem_finals q).2 hacc, hmem⟩

/-- The prefix tree of `a a a`, `a b` and `c`. -/
def sprig : Automaton := empty.ingestAll ["a a a", "a b", "c"]

/-- Three nodes of one branch, the start node among them: of the edges between them one becomes a
self-loop and the other is discarded. -/
theorem sprig_makes_quotient :
    sprig.WellFormed ∧ ∃ b, sprig.merge (.ofList [0, 1, 2]) = ⟨.ok (some 6), b⟩ ∧ b.start = 6 ∧
      b.edge? 0 = some ⟨6, "a", 6⟩ ∧ b.edge? 1 = none ∧ b.Arc 6 "a" 6 ∧
      (∃ n, b.node? 6 = some n ∧ n.name = "0,1,2") ∧ b.WellFormed := by
  have hwf : sprig.WellFormed := (violation?_eq_none_iff.1 (by decide +kernel)).toWellFormed
  have hsize : sprig.nodes.size = 6 := by decide +kernel
  have hlive : ∀ q ∈ SortedSet.ofList [0, 1, 2], sprig.isLive q = true := by
    intro q hq
    rcases (by simpa using hq : q = 0 ∨ q = 1 ∨ q = 2) with rfl | rfl | rfl <;> decide +kernel
  obtain ⟨b, hb, -, -, harc, hedge, hstart, -, ⟨n, hn, hname, -⟩, -, -, -, -, hwfb⟩ :=
    merge_makes_quotient hwf hlive (by decide +kernel)
  have hfirst : sprig.edge? 0 = some ⟨0, "a", 1⟩ := by decide +kernel
  have hsecond : sprig.edge? 1 = some ⟨1, "a", 2⟩ := by decide +kernel
  refine ⟨hwf, b, hsize ▸ hb, hstart.trans (by decide +kernel), ?_, ?_, ?_,
    ⟨n, hsize ▸ hn, hname.trans (by decide +kernel)⟩, hwfb⟩
  · exact (hedge 0 _).2 ⟨_, hfirst, fun f _ _ _ => Nat.zero_le f, by decide +kernel⟩
  · refine Option.eq_none_iff_forall_not_mem.2 fun y hy => ?_
    obtain ⟨x, hx, hs, -⟩ := (hedge 1 y).1 hy
    obtain rfl := Option.some.inj (hsecond.symm.trans hx)
    exact absurd (hs 0 _ hfirst (by decide +kernel)) (by decide)
  · exact (harc 6 "a" 6).2 ⟨0, 1, ⟨0, hfirst⟩, by decide +kernel, by decide +kernel⟩

end StateMerging.Automaton
