import StateMerging.Proofs.Closure
import StateMerging.Proofs.Names
import Mathlib.Logic.Equiv.Basic

/-!
# Merges in another order, and merges of what was merged

Two disjoint groups can be merged in either order, and a group can be merged first and its
replacement with further nodes then, instead of all of them at once.  What comes out differs in the
handles of the fresh nodes only, and in the last case in the order of the parts of a name.

* `IsCopy r b c`: the automaton `c` holds the nodes of `b` under the handles that `r` gives them,
  and the same edges under the same handles.
* `Merges.keepsViews`: after any sequence of merges the views of a node that was there before are
  what is left of them, in their order, and the views of a fresh node are in ascending order; so the
  views are determined by the edges.
* `IsRenaming.exists_node?_eq`: two sequences of merges that make the same quotient leave the same
  nodes, up to the names of the fresh ones.
* `merges_commute_and_cascade`: this is so for two merges in either order, and for a merge of what
  was merged.
-/

namespace StateMerging

open scoped List

/-! ## Lists of members -/

namespace SortedSet

variable {α : Type} [Ord α] [Std.TransOrd α] [Std.LawfulEqOrd α] {s t : SortedSet α} {x : α}

theorem perm_toList_insert (hx : x ∉ s) : (s.insert x).toList ~ x :: s.toList := by
  have hnodup : (x :: s.toList).Nodup := List.nodup_cons.2 ⟨hx, s.nodup⟩
  refine (List.perm_ext_iff_of_nodup (s.insert x).nodup hnodup).2 fun y => ?_
  simp [mem_toList]

theorem perm_toList_union (hst : ∀ x ∈ s, x ∉ t) : (s.union t).toList ~ s.toList ++ t.toList := by
  have hnodup : (s.toList ++ t.toList).Nodup :=
    List.nodup_append'.2 ⟨s.nodup, t.nodup, fun x hs ht => hst x hs ht⟩
  refine (List.perm_ext_iff_of_nodup (s.union t).nodup hnodup).2 fun y => ?_
  simp [mem_toList]

end SortedSet

/-! ## Views -/

/-- The node with those edges only that satisfy `p`. -/
def Node.restrict (n : Node) (p : EdgeId → Bool) : Node :=
  { n with
    edges := n.edges.filter p
    outgoing := n.outgoing.filter p
    incoming := n.incoming.filter p }

theorem Node.restrict_restrict (n : Node) (p r : EdgeId → Bool) (h : ∀ e, r e = true → p e = true) :
    (n.restrict p).restrict r = n.restrict r := by
  have hand : (fun e => r e && p e) = r := by
    funext e
    cases hr : r e with
    | false => rfl
    | true => rw [h e hr, Bool.and_self]
  simp only [Node.restrict, List.filter_filter, hand]

/-- The views of a node are in ascending order. -/
structure Node.Ascending (n : Node) : Prop where
  edges : n.edges.Pairwise (· < ·)
  outgoing : n.outgoing.Pairwise (· < ·)
  incoming : n.incoming.Pairwise (· < ·)

theorem Node.Ascending.restrict {n : Node} (h : n.Ascending) (p : EdgeId → Bool) :
    (n.restrict p).Ascending :=
  ⟨h.edges.filter p, h.outgoing.filter p, h.incoming.filter p⟩

namespace Automaton

variable {a b c : Automaton} {h g r : NodeId → NodeId} {group s t : SortedSet NodeId}
  {p q : NodeId} {n : Node} {e : EdgeId} {name : String}

/-- What a sequence of merges makes of the views: a node that keeps its handle keeps the edges that
are left, in their order, and a fresh node lists its edges in ascending order. -/
structure KeepsViews (a b : Automaton) : Prop where
  kept : ∀ q n k, a.node? q = some n → b.node? q = some k → k = n.restrict b.edges.isLive
  fresh : ∀ q k, a.nodes.size ≤ q → b.node? q = some k → k.Ascending

theorem WellFormed.restrict_eq_self (ha : a.WellFormed) (hn : a.node? q = some n) :
    n.restrict a.edges.isLive = n := by
  have stays {es : List EdgeId} (hes : ∀ e ∈ es, ∃ x, a.edge? e = some x) :
      es.filter a.edges.isLive = es :=
    List.filter_eq_self.2 fun e he => Arena.isLive_iff.2 (hes e he)
  have hedges := stays fun e he => ((ha.mem_edges q n hn e).1 he).imp fun _ h => h.1
  have hout := stays fun e he => ((ha.mem_outgoing q n hn e).1 he).imp fun _ h => h.1
  have hin := stays fun e he => ((ha.mem_incoming q n hn e).1 he).imp fun _ h => h.1
  rw [Node.restrict, hedges, hout, hin]

theorem WellFormed.ascending_replacement (ha : a.WellFormed)
    (hg : ∀ q ∈ group, a.isLive q = true) : (a.replacement group a.nodes.size).Ascending := by
  have himages : (a.images group a.nodes.size).Pairwise (fun p r => p.1 < r.1) :=
    List.pairwise_map.2 (ha.pairwise_moved hg)
  have ascending (kind : EdgeId × Edge → Bool) :
      (((a.keptEdges group).filter kind).map (·.1)).Pairwise (· < ·) :=
    List.pairwise_map.2 ((himages.filter _).filter kind)
  rw [replacement_eq]
  exact ⟨ascending _, ascending _, ascending _⟩

theorem IsQuotient.isLive_edges_of (k : IsQuotient h a b) (he : b.edges.isLive e = true) :
    a.edges.isLive e = true := by
  obtain ⟨y, hy⟩ := Arena.isLive_iff.1 he
  obtain ⟨x, hx, -⟩ := k.edge_of e y hy
  exact Arena.isLive_iff.2 ⟨x, hx⟩

theorem Merges.keepsViews (k : Merges h a b) (ha : a.WellFormed) : KeepsViews a b := by
  induction k with
  | refl a =>
    refine ⟨fun q n k hn hk => ?_, fun q k hq hk => ?_⟩
    · rw [ha.restrict_eq_self hn]
      exact Option.some.inj (hk.symm.trans hn)
    · exact absurd (Arena.lt_size_of_get? hk) (Nat.not_lt.2 hq)
  | @merge h a b group k live two ih =>
    have hb := k.wellFormed ha
    have hsize : a.nodes.size ≤ b.nodes.size := (k.isQuotient ha).nodes_size_le
    have hne : ∃ q, q ∈ group := (SortedSet.one_lt_size_iff.1 two).imp fun _ h => h.1
    have hsub := fun e => (hb.isQuotient_merged live hne).isLive_edges_of (e := e)
    -- A node that is not the fresh one was there before the last merge, outside of its group.
    have before (q k) (hq : q ≠ b.nodes.size) (hk : (b.merged group).node? q = some k) :
        ∃ k₀, b.node? q = some k₀ ∧ k = k₀.restrict (b.merged group).edges.isLive := by
      by_cases hmem : q ∈ group
      · simp [node?_merged_of_mem hmem] at hk
      · obtain ⟨k₀, hk₀, -⟩ := Option.map_eq_some_iff.1 (node?_merged_of_not_mem hmem hq ▸ hk)
        refine ⟨k₀, hk₀, Option.some.inj (hk.symm.trans ?_)⟩
        exact hb.node?_merged_eq live hk₀ hmem
    refine ⟨fun q n k hn hk => ?_, fun q k hq hk => ?_⟩
    · have hq : q ≠ b.nodes.size := Nat.ne_of_lt ((Arena.lt_size_of_get? hn).trans_le hsize)
      obtain ⟨k₀, hk₀, rfl⟩ := before q k hq hk
      rw [(ih ha).kept q n k₀ hn hk₀, Node.restrict_restrict _ _ _ hsub]
    · by_cases hm : q = b.nodes.size
      · subst hm
        rw [node?_merged_fresh (size_not_mem live), Option.some.injEq] at hk
        exact hk ▸ hb.ascending_replacement live
      · obtain ⟨k₀, hk₀, rfl⟩ := before q k hm hk
        exact ((ih ha).fresh q k₀ hq hk₀).restrict _
  | resume _ phase frontier ih => exact ⟨(ih ha).kept, (ih ha).fresh⟩

/-! ## Copies -/

/-- The second automaton holds the nodes of the first under the handles that `r` gives them, with
their names and views, and is otherwise the same. -/
structure IsCopy (r : NodeId → NodeId) (a b : Automaton) : Prop extends IsRenaming r a b where
  node?_eq : ∀ q, b.node? (r q) = a.node? q
  edges_size_eq : b.edges.size = a.edges.size
  phase_eq : b.phase = a.phase
  frontier_eq : b.frontier = a.frontier
  nextName_eq : b.nextName = a.nextName

theorem IsRenaming.isLive_edges_eq (k : IsRenaming r b c) (e : EdgeId) :
    c.edges.isLive e = b.edges.isLive e := by
  have h := congrArg Option.isSome (k.edge?_eq e)
  rw [Option.isSome_map] at h
  exact h

theorem IsRenaming.isLive_eq (k : IsRenaming r b c) (hr : Function.Injective r) (q : NodeId) :
    c.isLive (r q) = b.isLive q := by
  rw [Bool.eq_iff_iff, k.isLive_iff]
  constructor
  · rintro ⟨p, hp, hpq⟩
    exact hr hpq ▸ hp
  · exact fun hq => ⟨q, hq, rfl⟩

theorem IsRenaming.exists_node? (k : IsRenaming r b c) (hr : Function.Injective r)
    (hq : b.node? q = some n) : ∃ n', c.node? (r q) = some n' := by
  have hlive : b.isLive q = true := Automaton.isLive_iff.2 ⟨n, hq⟩
  exact Automaton.isLive_iff.1 ((k.isLive_eq hr q).trans hlive)

theorem IsRenaming.node?_eq_none (k : IsRenaming r b c) (hr : Function.Injective r)
    (hq : b.node? q = none) : c.node? (r q) = none :=
  isLive_eq_false_iff.1 ((k.isLive_eq hr q).trans (isLive_eq_false_iff.2 hq))

/-- Views in ascending order that list the same edges are equal. -/
theorem IsRenaming.lists_eq (k : IsRenaming r b c) {es fs : List EdgeId} {kind kind' : Edge → Bool}
    (hes : b.Lists es kind) (hfs : c.Lists fs kind') (hkind : ∀ x, kind' (x.map r) = kind x)
    (hes' : es.Pairwise (· < ·)) (hfs' : fs.Pairwise (· < ·)) : fs = es := by
  refine SortedSet.eq_of_mem_iff (hfs'.imp Nat.compare_eq_lt.2) (hes'.imp Nat.compare_eq_lt.2)
    fun e => ?_
  rw [hes.mem_iff, hfs.mem_iff, k.edge?_eq]
  simp [hkind]

theorem IsRenaming.accepting_eq (k : IsRenaming r b c) (hb : b.WellFormed) (hc : c.WellFormed)
    (hr : Function.Injective r) {n n' : Node} (hn : b.node? q = some n)
    (hn' : c.node? (r q) = some n') : n'.accepting = n.accepting := by
  have hfinal : q ∈ b.finals ↔ n.accepting = true := by simp [hb.mem_finals, hn]
  have hfinal' : r q ∈ c.finals ↔ n'.accepting = true := by simp [hc.mem_finals, hn']
  rw [Bool.eq_iff_iff, ← hfinal, ← hfinal', k.mem_finals]
  simp [hr.eq_iff]

/-- Nodes that list the same edges in ascending order differ in the name only. -/
theorem IsRenaming.eq_of_ascending (k : IsRenaming r b c) (hb : b.WellFormed) (hc : c.WellFormed)
    (hr : Function.Injective r) {n n' : Node} (hn : b.node? q = some n)
    (hn' : c.node? (r q) = some n') (h : n.Ascending) (h' : n'.Ascending) :
    n' = { n with name := n'.name } := by
  have hsource (x : Edge) : (x.map r).source = r q ↔ x.source = q := hr.eq_iff
  have htarget (x : Edge) : (x.map r).target = r q ↔ x.target = q := hr.eq_iff
  have hedges : n'.edges = n.edges :=
    k.lists_eq (hb.views hn).edges (hc.views hn').edges
      (fun x => by simp only [Edge.incidentTo, hsource, htarget]) h.edges h'.edges
  have hout : n'.outgoing = n.outgoing :=
    k.lists_eq (hb.views hn).outgoing (hc.views hn').outgoing
      (fun x => by simp only [hsource]) h.outgoing h'.outgoing
  have hin : n'.incoming = n.incoming :=
    k.lists_eq (hb.views hn).incoming (hc.views hn').incoming
      (fun x => by simp only [htarget]) h.incoming h'.incoming
  rw [← k.accepting_eq hb hc hr hn hn', ← hedges, ← hout, ← hin]

/-! ## Another name -/

/-- The automaton with another name at a node. -/
def rename (a : Automaton) (q : NodeId) (name : String) : Automaton :=
  a.modifyNode q ({ · with name := name })

theorem node?_rename (a : Automaton) (q p : NodeId) (name : String) :
    (a.rename q name).node? p =
      if q = p then (a.node? p).map ({ · with name := name }) else a.node? p :=
  Arena.get?_modify ..

@[simp] theorem isLive_rename (a : Automaton) (q p : NodeId) (name : String) :
    (a.rename q name).isLive p = a.isLive p := by
  rw [Bool.eq_iff_iff, Automaton.isLive_iff, Automaton.isLive_iff, node?_rename]
  split <;> simp

theorem IsRenaming.rename (k : IsRenaming r b c) (q : NodeId) (name : String) :
    IsRenaming r (b.rename q name) c where
  isLive_iff p := by simpa using k.isLive_iff p
  injective p q := by simpa using k.injective p q
  start_eq := k.start_eq
  mem_finals := k.mem_finals
  edge?_eq := k.edge?_eq

/-! ## Sequences of merges that make the same quotient -/

section

variable (k : IsRenaming r b c) (kb : Merges h a b) (kc : Merges g a c) (ha : a.WellFormed)
  (hr : Function.Injective r) (hold : ∀ q < a.nodes.size, r q = q)
include k kb kc ha hr hold

/-- A node that was there before the merges is left the same by both sequences of merges. -/
theorem IsRenaming.node?_eq_of_lt (hq : q < a.nodes.size) : c.node? (r q) = b.node? q := by
  rw [hold q hq]
  cases hb : b.node? q with
  | none => exact hold q hq ▸ k.node?_eq_none hr hb
  | some n =>
    obtain ⟨n', hc⟩ := k.exists_node? hr hb
    rw [hold q hq] at hc
    obtain ⟨p, hp, hpq⟩ := ((kb.isQuotient ha).isLive_iff q).1 (Automaton.isLive_iff.2 ⟨n, hb⟩)
    obtain rfl : p = q := (kb.isQuotient ha).eq_of_lt hq hpq
    obtain ⟨n₀, hn₀⟩ := Automaton.isLive_iff.1 hp
    have hsame : c.edges.isLive = b.edges.isLive := funext k.isLive_edges_eq
    rw [hc, (kc.keepsViews ha).kept p n₀ n' hn₀ hc, hsame, ← (kb.keepsViews ha).kept p n₀ n hn₀ hb]

/-- Two sequences of merges that make the same quotient leave the same nodes, up to the names of the
fresh ones. -/
theorem IsRenaming.exists_node?_eq (hq : b.node? q = some n) :
    ∃ name, c.node? (r q) = some { n with name := name } := by
  by_cases hlt : q < a.nodes.size
  · exact ⟨n.name, by rw [k.node?_eq_of_lt kb kc ha hr hold hlt, hq]⟩
  · have hfresh : a.nodes.size ≤ r q := by
      by_contra hlt'
      have hlt' : r q < a.nodes.size := Nat.lt_of_not_le hlt'
      exact hlt (hr (hold (r q) hlt') ▸ hlt')
    obtain ⟨n', hn'⟩ := k.exists_node? hr hq
    refine ⟨n'.name, hn'.trans (congrArg some ?_)⟩
    exact k.eq_of_ascending (kb.wellFormed ha) (kc.wellFormed ha) hr hq hn'
      ((kb.keepsViews ha).fresh q n (Nat.le_of_not_lt hlt) hq)
      ((kc.keepsViews ha).fresh (r q) n' hfresh hn')

/-- A node whose name is the same is the same. -/
theorem IsRenaming.node?_eq_of_name? (hname : b.isLive q = true → c.name? (r q) = b.name? q) :
    c.node? (r q) = b.node? q := by
  cases hq : b.node? q with
  | none => exact k.node?_eq_none hr hq
  | some n =>
    obtain ⟨name, hn⟩ := k.exists_node?_eq kb kc ha hr hold hq
    have hsame : name = n.name := by
      simpa [name?, hn, hq] using hname (Automaton.isLive_iff.2 ⟨n, hq⟩)
    rw [hn, hsame]

/-- If only one fresh node is left, its name makes the whole difference. -/
theorem IsRenaming.node?_eq_rename {m : NodeId}
    (halone : ∀ q, b.isLive q = true → q < a.nodes.size ∨ q = m)
    (hname : c.name? (r m) = some name) : c.node? (r q) = (b.rename m name).node? q := by
  rw [node?_rename]
  split
  · rename_i hm
    subst hm
    cases hq : b.node? m with
    | none => simp [k.node?_eq_none hr hq]
    | some n =>
      obtain ⟨name', hn⟩ := k.exists_node?_eq kb kc ha hr hold hq
      rw [name?, hn, Option.map_some, Option.some.injEq] at hname
      rw [hn, Option.map_some, ← hname]
  · rename_i hm
    refine k.node?_eq_of_name? kb kc ha hr hold fun hq => ?_
    rcases halone q hq with hlt | rfl
    · rw [name?, name?, k.node?_eq_of_lt kb kc ha hr hold hlt]
    · exact absurd rfl hm

end

/-! ## Two merges -/

/-- The map that exchanges the two handles that are issued next. -/
def exchange (a : Automaton) : NodeId → NodeId := Equiv.swap a.nodes.size (a.nodes.size + 1)

theorem exchange_injective : Function.Injective a.exchange := (Equiv.swap _ _).injective

@[simp] theorem exchange_size : a.exchange a.nodes.size = a.nodes.size + 1 :=
  Equiv.swap_apply_left _ _

@[simp] theorem exchange_size_add_one : a.exchange (a.nodes.size + 1) = a.nodes.size :=
  Equiv.swap_apply_right _ _

theorem exchange_of_lt (hq : q < a.nodes.size) : a.exchange q = q :=
  Equiv.swap_apply_of_ne_of_ne (Nat.ne_of_lt hq) (Nat.ne_of_lt (Nat.lt_succ_of_lt hq))

/-- Sequences of merges whose maps differ by `r` make automata that differ by `r`. -/
theorem Merges.isRenaming (kb : Merges h a b) (kc : Merges g a c) (ha : a.WellFormed)
    (hr : Function.Injective r) (hmap : ∀ p, a.isLive p = true → r (h p) = g p) :
    IsRenaming r b c := by
  have hsame (p q) (hp : a.isLive p = true) (hq : a.isLive q = true) : h p = h q ↔ g p = g q := by
    rw [← hmap p hp, ← hmap q hq, hr.eq_iff]
  exact (kb.isQuotient ha).isRenaming (kc.isQuotient ha) ha (kb.wellFormed ha) (kc.wellFormed ha)
    hsame hmap

section

variable (hs : ∀ q ∈ s, a.isLive q = true) (ht : ∀ q ∈ t, a.isLive q = true)
  (hst : ∀ q ∈ s, q ∉ t)
include ht hst

theorem filterMap_name?_merged :
    t.toList.filterMap (a.merged s).name? = t.toList.filterMap a.name? := by
  refine List.filterMap_congr fun q hq => ?_
  exact name?_merged_of_not_mem (fun hmem => hst q hmem hq) (ne_size_of_isLive (ht q hq))

omit hst
include hs

/-- The first fresh node keeps its name in the second merge. -/
theorem name?_merged_merged_fst : ((a.merged s).merged t).name? a.nodes.size =
    some (",".intercalate (s.toList.filterMap a.name?)) := by
  have hm : a.nodes.size ≠ (a.merged s).nodes.size := by simp
  rw [name?_merged_of_not_mem (size_not_mem ht) hm, name?_merged_fresh hs]

include hst

theorem isLive_merged_of_disjoint : ∀ q ∈ t, (a.merged s).isLive q = true := by
  intro q hq
  exact (isLive_merged_iff hs).2 (Or.inr ⟨ht q hq, fun hmem => hst q hmem hq⟩)

theorem name?_merged_merged_snd : ((a.merged s).merged t).name? (a.nodes.size + 1) =
    some (",".intercalate (t.toList.filterMap a.name?)) := by
  have hfresh := name?_merged_fresh (isLive_merged_of_disjoint hs ht hst)
  rwa [nodes_size_merged, filterMap_name?_merged ht hst] at hfresh

/-- What is live after the two merges was live before, or is one of the fresh nodes. -/
theorem isLive_merged_merged_cases (hq : ((a.merged s).merged t).isLive q = true) :
    a.isLive q = true ∨ q = a.nodes.size ∨ q = a.nodes.size + 1 := by
  rcases (isLive_merged_iff (isLive_merged_of_disjoint hs ht hst)).1 hq with h | ⟨h, -⟩
  · exact Or.inr (Or.inr (h.trans nodes_size_merged))
  · rcases (isLive_merged_iff hs).1 h with h | ⟨h, -⟩
    · exact Or.inr (Or.inl h)
    · exact Or.inl h

/-- The maps of the two merges in either order. -/
theorem exchange_freshen (hp : a.isLive p = true) :
    a.exchange ((a.merged s).freshen t (a.freshen s p)) =
      (a.merged t).freshen s (a.freshen t p) := by
  have hlt := lt_size_of_isLive hp
  simp only [freshen, nodes_size_merged]
  by_cases hps : p ∈ s
  · rw [collapse_of_mem hps, collapse_of_not_mem (size_not_mem ht), exchange_size,
      collapse_of_not_mem (hst p hps), collapse_of_mem hps]
  · rw [collapse_of_not_mem hps]
    by_cases hpt : p ∈ t
    · rw [collapse_of_mem hpt, exchange_size_add_one, collapse_of_mem hpt,
        collapse_of_not_mem (size_not_mem hs)]
    · rw [collapse_of_not_mem hpt, collapse_of_not_mem hpt, exchange_of_lt hlt,
        collapse_of_not_mem hps]

end

theorem merges_merged_merged (hs : ∀ q ∈ s, a.isLive q = true)
    (ht : ∀ q ∈ t, (a.merged s).isLive q = true) (hs₂ : 2 ≤ s.size) (ht₂ : 2 ≤ t.size) :
    Merges ((a.merged s).freshen t ∘ a.freshen s) a ((a.merged s).merged t) :=
  ((Merges.refl a).merge hs hs₂).merge ht ht₂

/-- Merges of disjoint groups commute, up to the handles of the replacements. -/
theorem WellFormed.isCopy_merged_comm (ha : a.WellFormed) (hs : ∀ q ∈ s, a.isLive q = true)
    (ht : ∀ q ∈ t, a.isLive q = true) (hst : ∀ q ∈ s, q ∉ t) (hs₂ : 2 ≤ s.size)
    (ht₂ : 2 ≤ t.size) : IsCopy a.exchange ((a.merged s).merged t) ((a.merged t).merged s) := by
  have hts (q) (hq : q ∈ t) : q ∉ s := fun hmem => hst q hmem hq
  have kb := merges_merged_merged hs (isLive_merged_of_disjoint hs ht hst) hs₂ ht₂
  have kc := merges_merged_merged ht (isLive_merged_of_disjoint ht hs hts) ht₂ hs₂
  have k := kb.isRenaming kc ha exchange_injective fun p hp => exchange_freshen hs ht hst hp
  have hold (q) (hq : q < a.nodes.size) : a.exchange q = q := exchange_of_lt hq
  refine ⟨k, fun q => ?_, by simp, by simp, by simp, by simp⟩
  refine k.node?_eq_of_name? kb kc ha exchange_injective hold fun hq => ?_
  rcases isLive_merged_merged_cases hs ht hst hq with h | rfl | rfl
  · rw [name?, name?, k.node?_eq_of_lt kb kc ha exchange_injective hold (lt_size_of_isLive h)]
  · rw [exchange_size, name?_merged_merged_fst hs ht, name?_merged_merged_snd ht hs hts]
  · rw [exchange_size_add_one, name?_merged_merged_fst ht hs, name?_merged_merged_snd hs ht hst]

/-! ## A merge of what was merged -/

/-- The map of a merge and a merge of its replacement, and that of one merge for both. -/
theorem exchange_freshen_insert (hp : a.isLive p = true) :
    a.exchange ((a.merged s).freshen (t.insert a.nodes.size) (a.freshen s p)) =
      a.freshen (s.union t) p := by
  have hlt := lt_size_of_isLive hp
  simp only [freshen, nodes_size_merged]
  by_cases hps : p ∈ s
  · rw [collapse_of_mem hps, collapse_of_mem (by simp), exchange_size_add_one,
      collapse_of_mem (by simp [hps])]
  · rw [collapse_of_not_mem hps]
    by_cases hpt : p ∈ t
    · rw [collapse_of_mem (by simp [hpt]), exchange_size_add_one, collapse_of_mem (by simp [hpt])]
    · have hne : p ≠ a.nodes.size := Nat.ne_of_lt hlt
      rw [collapse_of_not_mem (by simp [hne, hpt]), exchange_of_lt hlt,
        collapse_of_not_mem (by simp [hps, hpt])]

section

variable (hs : ∀ q ∈ s, a.isLive q = true) (ht : ∀ q ∈ t, a.isLive q = true)
  (hst : ∀ q ∈ s, q ∉ t)
include hs ht

theorem isLive_of_mem_union : ∀ q ∈ s.union t, a.isLive q = true := by
  intro q hq
  exact (SortedSet.mem_union.1 hq).elim (hs q) (ht q)

include hst

theorem isLive_merged_of_mem_insert :
    ∀ q ∈ t.insert a.nodes.size, (a.merged s).isLive q = true := by
  intro q hq
  rcases SortedSet.mem_insert.1 hq with rfl | hq
  · exact (isLive_merged_iff hs).2 (Or.inl rfl)
  · exact isLive_merged_of_disjoint hs ht hst q hq

/-- The name of the replacement of a replacement has the parts that it would have if all nodes were
merged at once. -/
theorem perm_parts_cascade (hne : ∃ q, q ∈ s) :
    parts (",".intercalate ((s.union t).toList.filterMap a.name?)) ~
      parts (",".intercalate ((t.insert a.nodes.size).toList.filterMap (a.merged s).name?)) := by
  have hunion : ∃ q, q ∈ s.union t := hne.imp fun q hq => SortedSet.mem_union.2 (Or.inl hq)
  rw [parts_merged (isLive_of_mem_union hs ht) hunion,
    parts_merged (isLive_merged_of_mem_insert hs ht hst) ⟨_, SortedSet.mem_insert.2 (Or.inl rfl)⟩]
  calc ((s.union t).toList.filterMap a.name?).flatMap parts
    _ ~ ((s.toList ++ t.toList).filterMap a.name?).flatMap parts :=
        ((SortedSet.perm_toList_union hst).filterMap _).flatMap_right _
    _ = (s.toList.filterMap a.name?).flatMap parts ++
          (t.toList.filterMap a.name?).flatMap parts := by
        rw [List.filterMap_append, List.flatMap_append]
    _ = ((a.nodes.size :: t.toList).filterMap (a.merged s).name?).flatMap parts := by
        rw [List.filterMap_cons_some (name?_merged_fresh hs), List.flatMap_cons,
          parts_merged hs hne, filterMap_name?_merged ht hst]
    _ ~ ((t.insert a.nodes.size).toList.filterMap (a.merged s).name?).flatMap parts :=
        ((SortedSet.perm_toList_insert (size_not_mem ht)).symm.filterMap _).flatMap_right _

end

theorem two_le_size_cascade (hs₂ : 2 ≤ s.size) (ht : ∀ q ∈ t, a.isLive q = true)
    (hne : ∃ q, q ∈ t) : 2 ≤ (s.union t).size ∧ 2 ≤ (t.insert a.nodes.size).size := by
  constructor
  · obtain ⟨p, hp, q, hq, hpq⟩ := SortedSet.one_lt_size_iff.1 hs₂
    exact SortedSet.one_lt_size_iff.2 ⟨p, by simp [hp], q, by simp [hq], hpq⟩
  · obtain ⟨p, hp⟩ := hne
    exact SortedSet.one_lt_size_iff.2 ⟨p, by simp [hp], _, by simp, ne_size_of_isLive (ht p hp)⟩

/-- Merging a replacement with further nodes is merging all of them at once, up to the handle and
the name of the replacement. -/
theorem WellFormed.isCopy_merged_cascade (ha : a.WellFormed) (hs : ∀ q ∈ s, a.isLive q = true)
    (ht : ∀ q ∈ t, a.isLive q = true) (hst : ∀ q ∈ s, q ∉ t) (hs₂ : 2 ≤ s.size)
    (hne : ∃ q, q ∈ t) (hname : (a.merged (s.union t)).name? a.nodes.size = some name) :
    IsCopy a.exchange
      (((a.merged s).merged (t.insert a.nodes.size)).rename (a.nodes.size + 1) name)
      (a.merged (s.union t)) := by
  obtain ⟨hunion₂, hinsert₂⟩ := two_le_size_cascade hs₂ ht hne
  have hinsert := isLive_merged_of_mem_insert hs ht hst
  have kb := merges_merged_merged hs hinsert hs₂ hinsert₂
  have kc := (Merges.refl a).merge (isLive_of_mem_union hs ht) hunion₂
  have k := kb.isRenaming kc ha exchange_injective fun p hp => exchange_freshen_insert hp
  have hold (q) (hq : q < a.nodes.size) : a.exchange q = q := exchange_of_lt hq
  have halone (q) (hq : ((a.merged s).merged (t.insert a.nodes.size)).isLive q = true) :
      q < a.nodes.size ∨ q = a.nodes.size + 1 := by
    rcases (isLive_merged_iff hinsert).1 hq with h | ⟨h, hmem⟩
    · exact Or.inr (h.trans nodes_size_merged)
    · rcases (isLive_merged_iff hs).1 h with rfl | ⟨h, -⟩
      · exact absurd (SortedSet.mem_insert.2 (Or.inl rfl)) hmem
      · exact Or.inl (lt_size_of_isLive h)
  rw [← exchange_size_add_one] at hname
  refine ⟨k.rename _ _, fun q => ?_, ?_, ?_, ?_, ?_⟩
  · exact k.node?_eq_rename kb kc ha exchange_injective hold halone hname
  all_goals simp [rename, modifyNode]

/-! ## Both merges -/

/-- In an automaton that meets its contract, the frontier aside, let `s` and `t` be disjoint groups
of live nodes.  Merging them in either order makes the same automaton, up to the handles of the two
replacements, which are exchanged.  Merging `s` and then its replacement with `t` makes the same
automaton as merging all of them at once, up to the handle of the replacement and the order of the
parts of its name. -/
theorem merges_commute_and_cascade (ha : a.WellFormed) (hs : ∀ q ∈ s, a.isLive q = true)
    (ht : ∀ q ∈ t, a.isLive q = true) (hst : ∀ q ∈ s, q ∉ t) (hs₂ : 2 ≤ s.size) :
    ∃ b, a.merge s = ⟨.ok (some a.nodes.size), b⟩ ∧
      (2 ≤ t.size → ∃ c d d',
        b.merge t = ⟨.ok (some (a.nodes.size + 1)), d⟩ ∧
        a.merge t = ⟨.ok (some a.nodes.size), c⟩ ∧
        c.merge s = ⟨.ok (some (a.nodes.size + 1)), d'⟩ ∧
        d.nodes.size = d'.nodes.size ∧ IsCopy a.exchange d d') ∧
      ((∃ q, q ∈ t) → ∃ c d old new,
        b.merge (t.insert a.nodes.size) = ⟨.ok (some (a.nodes.size + 1)), c⟩ ∧
        a.merge (s.union t) = ⟨.ok (some a.nodes.size), d⟩ ∧
        c.name? (a.nodes.size + 1) = some old ∧ parts new ~ parts old ∧
        IsCopy a.exchange (c.rename (a.nodes.size + 1) new) d) := by
  have hsome : ∃ q, q ∈ s := (SortedSet.one_lt_size_iff.1 hs₂).imp fun _ h => h.1
  have hb := ha.merged hs hsome
  refine ⟨a.merged s, ha.merge_eq hs hs₂, fun ht₂ => ?_, fun hne => ?_⟩
  · have hts (q) (hq : q ∈ t) : q ∉ s := fun hmem => hst q hmem hq
    have hc := ha.merged ht ((SortedSet.one_lt_size_iff.1 ht₂).imp fun _ h => h.1)
    have hd := hb.merge_eq (isLive_merged_of_disjoint hs ht hst) ht₂
    have hd' := hc.merge_eq (isLive_merged_of_disjoint ht hs hts) hs₂
    rw [nodes_size_merged] at hd hd'
    exact ⟨_, _, _, hd, ha.merge_eq ht ht₂, hd', by simp, ha.isCopy_merged_comm hs ht hst hs₂ ht₂⟩
  · obtain ⟨hunion₂, hinsert₂⟩ := two_le_size_cascade hs₂ ht hne
    have hunion := isLive_of_mem_union hs ht
    have hinsert := isLive_merged_of_mem_insert hs ht hst
    have hc := hb.merge_eq hinsert hinsert₂
    have hname := name?_merged_fresh hinsert
    have hname' := name?_merged_fresh hunion
    rw [nodes_size_merged] at hc hname
    exact ⟨_, _, _, _, hc, ha.merge_eq hunion hunion₂, hname, perm_parts_cascade hs ht hst hsome,
      ha.isCopy_merged_cascade hs ht hst hs₂ hne hname'⟩

/-- The prefix tree of `a b` and `c b`. -/
def fork : Automaton := empty.ingestAll ["a b", "c b"]

/-- The edges on `b` agree only when both groups are merged; in either order the one with the higher
handle goes. -/
theorem fork_merges_commute_and_cascade :
    ∃ b d d', fork.merge (.ofList [1, 3]) = ⟨.ok (some 5), b⟩ ∧
      b.merge (.ofList [2, 4]) = ⟨.ok (some 6), d⟩ ∧ d.edge? 1 = some ⟨5, "b", 6⟩ ∧
      d.edge? 3 = none ∧ IsCopy fork.exchange d d' ∧ d'.edge? 1 = some ⟨6, "b", 5⟩ ∧
      d'.edge? 3 = none ∧
      ∃ c c' new, b.merge (.ofList [2, 4, 5]) = ⟨.ok (some 6), c⟩ ∧
        fork.merge (.ofList [1, 2, 3, 4]) = ⟨.ok (some 5), c'⟩ ∧
        parts new ~ ["2", "4", "1", "3"] ∧ IsCopy fork.exchange (c.rename 6 new) c' := by
  have hwf : fork.WellFormed := (violation?_eq_none_iff.1 (by decide +kernel)).toWellFormed
  have hsize : fork.nodes.size = 5 := by decide +kernel
  have hs : ∀ q ∈ SortedSet.ofList [1, 3], fork.isLive q = true := by decide +kernel
  have ht : ∀ q ∈ SortedSet.ofList [2, 4], fork.isLive q = true := by decide +kernel
  have hst : ∀ q ∈ SortedSet.ofList [1, 3], q ∉ SortedSet.ofList [2, 4] := by decide +kernel
  obtain ⟨b, hb, hcommute, hcascade⟩ :=
    merges_commute_and_cascade hwf hs ht hst (by decide +kernel)
  obtain ⟨-, d, d', hd, -, -, -, hcopy⟩ := hcommute (by decide +kernel)
  obtain ⟨c, c', old, new, hc, hc', hname, hparts, hcopy'⟩ := hcascade ⟨2, by decide +kernel⟩
  rw [hsize] at hb hd hc hc' hname hcopy'
  have hrun : d = ((fork.merge (.ofList [1, 3])).after.merge (.ofList [2, 4])).after := by
    rw [hb, hd]
  have hrun' : c = ((fork.merge (.ofList [1, 3])).after.merge (.ofList [2, 4, 5])).after := by
    rw [hb]
    exact (congrArg Outcome.after hc).symm
  have hkept : d.edge? 1 = some ⟨5, "b", 6⟩ := by rw [hrun]; decide +kernel
  have hgone : d.edge? 3 = none := by rw [hrun]; decide +kernel
  have hjoined : c.name? 6 = some "2,4,1,3" := by rw [hrun']; decide +kernel
  have hparts' : parts old = ["2", "4", "1", "3"] := by
    obtain rfl : old = "2,4,1,3" := Option.some.inj (hname.symm.trans hjoined)
    decide +kernel
  refine ⟨b, d, d', hb, hd, hkept, hgone, hcopy, ?_, ?_, c, c', new, hc, hc', hparts' ▸ hparts,
    hcopy'⟩
  · rw [hcopy.edge?_eq, hkept]
    decide +kernel
  · rw [hcopy.edge?_eq, hgone, Option.map_none]

end Automaton

end StateMerging
