import StateMerging.Proofs.Names
import StateMerging.Snapshot.Display

/-!
# A snapshot finds the nodes that it refers to

The entries of a snapshot come in ascending order from an arena with gaps, so that a search by
halving finds the entry of a node wherever it stands, and finds none for a node that was merged away
or never was.  What a snapshot refers to is live by the contract, so that every node in the table
and in the line below it is written by its name, and never by the mark of a node that is not listed.

* `Snapshot.node?_eq_some_iff`: in ascending entries the search finds exactly the entry with the
  handle.
* `Automaton.node?_snapshot`: the snapshot finds what the automaton holds.
* `Automaton.WellFormed.isLive_of_refersTo`: start node, final nodes and ends of edges are live.
* `Snapshot.displayWith_congr`: the text depends only on how these nodes are written.
* `Automaton.Numbered.not_mem_showNode`: a live node is written without a question mark, since names
  are made of digits and commas.
* `lookups_find_live_nodes`: the conclusion for every automaton of a run.
-/

namespace StateMerging

/-! ## Searching ascending entries -/

namespace Snapshot

variable {s : Snapshot} {entries : Array NodeEntry} {q : NodeId} {x : NodeEntry}
  {f g : NodeId → String}

/-- The entries come in ascending order of their handles. -/
def Ascending (entries : Array NodeEntry) : Prop :=
  entries.toList.Pairwise fun x y => x.handle < y.handle

namespace Ascending

variable {i j : Nat} {bi : i < entries.size} {bj : j < entries.size}

theorem handle_lt (h : Ascending entries) (hij : i < j) : entries[i].handle < entries[j].handle :=
  List.pairwise_iff_getElem.1 h i j bi bj hij

theorem lt_of_handle_lt (h : Ascending entries) (hlt : entries[i].handle < entries[j].handle) :
    i < j := by
  rcases Nat.lt_trichotomy i j with hij | rfl | hij
  · exact hij
  · exact absurd hlt (Nat.lt_irrefl _)
  · exact absurd hlt (Nat.lt_asymm (h.handle_lt hij))

theorem eq_of_handle_eq (h : Ascending entries) (heq : entries[i].handle = entries[j].handle) :
    i = j := by
  rcases Nat.lt_trichotomy i j with hij | hij | hij
  · exact absurd heq (Nat.ne_of_lt (h.handle_lt hij))
  · exact hij
  · exact absurd heq.symm (Nat.ne_of_lt (h.handle_lt hij))

/-- The search does not pass by the entry if it is in the window. -/
theorem search_eq_some (h : Ascending entries) {lo hi : Nat} {bound : hi ≤ entries.size}
    (hlo : lo ≤ i) (hhi : i < hi) (hq : entries[i].handle = q) :
    search entries q lo hi bound = some entries[i] := by
  fun_induction search entries q lo hi bound with
  | case1 lo hi bound _ mid hmid heq =>
    obtain rfl : i = mid := h.eq_of_handle_eq (hq.trans heq.symm)
    rfl
  | case2 lo hi bound _ mid hmid _ hless ih =>
    exact ih (h.lt_of_handle_lt (hq ▸ hless)) hhi
  | case3 lo hi bound _ mid hmid hne hless ih =>
    have hlt : q < entries[mid].handle := Nat.lt_of_le_of_ne (Nat.le_of_not_lt hless) (Ne.symm hne)
    exact ih hlo (h.lt_of_handle_lt (hq ▸ hlt))
  | case4 => omega

end Ascending

/-- A lookup finds exactly the entry with the handle. -/
theorem node?_eq_some_iff (h : Ascending s.nodes) :
    s.node? q = some x ↔ x ∈ s.nodes ∧ x.handle = q := by
  constructor
  · intro hx
    obtain ⟨hq, hmem⟩ := handle_of_search hx
    exact ⟨hmem, hq⟩
  · rintro ⟨hx, hq⟩
    obtain ⟨i, hi, rfl⟩ := Array.mem_iff_getElem.1 hx
    exact h.search_eq_some (Nat.zero_le i) hi hq

/-! ## What a snapshot refers to -/

/-- The snapshot starts in the node, accepts in it, or has an edge at it. -/
def RefersTo (s : Snapshot) (q : NodeId) : Prop :=
  q = s.start ∨ q ∈ s.accepting ∨ ∃ e x, (e, x) ∈ s.edges ∧ x.incidentTo q = true

/-- Combined edges stand for an edge. -/
theorem exists_edge_of_mem_combined {c : CombinedEdge} (hc : c ∈ s.combined) :
    ∃ e x, (e, x) ∈ s.edges ∧ x.source = c.source ∧ x.target = c.target := by
  obtain ⟨k, hk, rfl⟩ := List.mem_map.1 hc
  obtain ⟨⟨e, x⟩, hx, rfl⟩ := List.mem_map.1 (List.mem_eraseDups.1 hk)
  exact ⟨e, x, hx, rfl, rfl⟩

/-- The text depends only on how the nodes are written that the snapshot refers to. -/
theorem displayWith_congr (h : ∀ q, s.RefersTo q → f q = g q) :
    s.displayWith f = s.displayWith g := by
  have hrows : s.rowsWith f = s.rowsWith g := by
    refine congrArg (_ :: ·) (List.map_congr_left fun c hc => ?_)
    obtain ⟨e, x, hx, hsource, htarget⟩ := exists_edge_of_mem_combined hc
    rw [h c.source (Or.inr (Or.inr ⟨e, x, hx, Edge.incidentTo_iff.2 (Or.inl hsource)⟩)),
      h c.target (Or.inr (Or.inr ⟨e, x, hx, Edge.incidentTo_iff.2 (Or.inr htarget)⟩))]
  have haccepting : s.accepting.toList.map f = s.accepting.toList.map g :=
    List.map_congr_left fun q hq => h q (Or.inr (Or.inl hq))
  rw [displayWith, displayWith, hrows, haccepting, h s.start (Or.inl rfl)]

end Snapshot

/-! ## How a node is written -/

theorem Text.Style.not_mem_apply {style : Style} (hs : style = .bold ∨ style = .green) {c : Char}
    (hc : c ∉ "\x1b[01239m".toList) {text : String} (h : c ∉ text.toList) :
    c ∉ (style.apply text).toList := by
  rcases hs with rfl | rfl
  · simp_all [apply, bold]
  · simp_all [apply, green]

/-- A node is written without a character if its name is, and its style. -/
theorem Snapshot.not_mem_showNode {s : Snapshot} {q : NodeId} {name : String}
    (hname : s.name? q = some name) {c : Char} (hc : c ∉ "\x1b[01239m".toList)
    (h : c ∉ name.toList) : c ∉ (s.showNode q).toList := by
  simp only [showNode, hname, Option.getD_some]
  have hgreen : c ∉ (if q ∈ s.accepting then Text.Style.green.apply name else name).toList := by
    split
    · exact Text.Style.not_mem_apply (Or.inr rfl) hc h
    · exact h
  split
  · exact Text.Style.not_mem_apply (Or.inl rfl) hc hgreen
  · exact hgreen

/-! ## The snapshot of an automaton -/

namespace Automaton

variable {a : Automaton} {q : NodeId} {x : NodeEntry}

theorem ascending_snapshot (a : Automaton) : Snapshot.Ascending a.snapshot.nodes :=
  List.pairwise_map.2 a.nodes.pairwise_entries

theorem mem_nodes_snapshot : x ∈ a.snapshot.nodes ↔
    ∃ n, a.node? x.handle = some n ∧ x = ⟨x.handle, n.name, n.accepting⟩ := by
  simp only [snapshot, List.mem_toArray, List.mem_map, Prod.exists, Arena.mem_entries]
  constructor
  · rintro ⟨q, n, hn, rfl⟩
    exact ⟨n, hn, rfl⟩
  · rintro ⟨n, hn, hx⟩
    exact ⟨x.handle, n, hn, hx.symm⟩

/-- The snapshot finds the entry of a live node and no other, in every automaton. -/
theorem node?_snapshot (a : Automaton) (q : NodeId) :
    a.snapshot.node? q = (a.node? q).map fun n => ⟨q, n.name, n.accepting⟩ := by
  refine Option.ext fun x => ?_
  rw [Snapshot.node?_eq_some_iff a.ascending_snapshot, mem_nodes_snapshot, Option.map_eq_some_iff]
  constructor
  · rintro ⟨⟨n, hn, hx⟩, rfl⟩
    exact ⟨n, hn, hx.symm⟩
  · rintro ⟨n, hn, rfl⟩
    exact ⟨⟨n, hn, rfl⟩, rfl⟩

theorem isSome_node?_snapshot (a : Automaton) (q : NodeId) :
    (a.snapshot.node? q).isSome = a.isLive q := by
  rw [node?_snapshot, Option.isSome_map]
  rfl

theorem name?_snapshot (a : Automaton) (q : NodeId) : a.snapshot.name? q = a.name? q := by
  rw [Snapshot.name?, node?_snapshot, Option.map_map]
  rfl

namespace WellFormed

theorem isLive_of_refersTo (ha : a.WellFormed) (hq : a.snapshot.RefersTo q) :
    a.isLive q = true := by
  rcases hq with rfl | hq | ⟨e, x, hx, hq⟩
  · exact ha.start_live
  · exact ha.isLive_of_mem_finals hq
  · have he : a.edge? e = some x := Arena.mem_entries.1 hx
    rcases Edge.incidentTo_iff.1 hq with rfl | rfl
    · exact ha.source_live e x he
    · exact ha.target_live e x he

theorem accepting_iff_of_mem_nodes (ha : a.WellFormed) (hx : x ∈ a.snapshot.nodes) :
    x.accepting = true ↔ x.handle ∈ a.snapshot.accepting := by
  obtain ⟨n, hn, hentry⟩ := mem_nodes_snapshot.1 hx
  have haccepting : x.accepting = n.accepting := congrArg NodeEntry.accepting hentry
  rw [show a.snapshot.accepting = a.finals from rfl, ha.mem_finals, haccepting, hn]
  simp only [Option.some.injEq, exists_eq_left']

end WellFormed

/-- A live node is written by digits and commas, and its style. -/
theorem Numbered.not_mem_showNode (k : a.Numbered) (hq : a.isLive q = true) {c : Char}
    (hc : c ∉ "\x1b[01239m".toList) (hcomma : c ≠ ',') (hdigit : c.isDigit = false) :
    c ∉ (a.snapshot.showNode q).toList := by
  obtain ⟨name, hname⟩ := exists_name?_of_isLive hq
  refine Snapshot.not_mem_showNode (name?_snapshot a q ▸ hname) hc fun hmem => ?_
  rcases k.eq_comma_or_isDigit hname hmem with h | h
  · exact hcomma h
  · exact absurd h (Bool.eq_false_iff.1 hdigit)

/-- After every run: the snapshot finds the entry of a node exactly if the node is live, whichever
handle is asked for, with the name and the acceptance of the node, and it is the only entry with the
handle.  Whatever the snapshot refers to is found.  Its text is the same however nodes are written
that are not live, and a live node is written without a question mark.  An entry is accepting
exactly if its handle is among the final nodes. -/
theorem lookups_find_live_nodes (ha : a.Reachable) :
    (∀ q, ((a.snapshot.node? q).isSome = true ↔ a.isLive q = true) ∧
      (∀ n, a.node? q = some n → a.snapshot.node? q = some ⟨q, n.name, n.accepting⟩) ∧
      ∀ x, a.snapshot.node? q = some x ↔ x ∈ a.snapshot.nodes ∧ x.handle = q) ∧
    (∀ q, a.snapshot.RefersTo q → (a.snapshot.node? q).isSome = true) ∧
    (∀ text : NodeId → String, (∀ q, a.isLive q = true → text q = a.snapshot.showNode q) →
      a.snapshot.displayWith text = a.snapshot.display) ∧
    (∀ q, a.isLive q = true → '?' ∉ (a.snapshot.showNode q).toList) ∧
    ∀ x ∈ a.snapshot.nodes, (x.accepting = true ↔ x.handle ∈ a.snapshot.accepting) := by
  have hwf := ha.coherent.toWellFormed
  obtain ⟨actions, rfl⟩ := ha
  refine ⟨fun q => ⟨?_, fun n hn => ?_, fun x => ?_⟩, fun q hq => ?_, fun text htext => ?_,
    fun q hq => ?_, fun x => hwf.accepting_iff_of_mem_nodes⟩
  · rw [isSome_node?_snapshot]
  · rw [node?_snapshot, hn, Option.map_some]
  · exact Snapshot.node?_eq_some_iff (ascending_snapshot _)
  · rw [isSome_node?_snapshot]
    exact hwf.isLive_of_refersTo hq
  · exact Snapshot.displayWith_congr fun q hq => htext q (hwf.isLive_of_refersTo hq)
  · exact (numbered_performAll actions).not_mem_showNode hq (by decide) (by decide) (by decide)

/-- Two sentences with a question mark for a token, whose ends are unified. -/
def puzzled : Automaton := empty.performAll [.ingest "why ?", .ingest "? why", .step]

/-- In `puzzled` the node 5 has replaced the nodes 2 and 4, and there is no node 6 yet.  The
question marks in the table are labels, and stay if nodes that are not live are left blank. -/
theorem puzzled_lookups :
    puzzled.snapshot.node? 5 = some ⟨5, "2,4", true⟩ ∧
    puzzled.snapshot.node? 4 = none ∧ puzzled.snapshot.node? 6 = none ∧
    (puzzled.snapshot.node? puzzled.start).isSome = true ∧
    puzzled.snapshot.displayWith
        (fun q => if q ∈ [0, 1, 3, 5] then puzzled.snapshot.showNode q else "") =
      puzzled.snapshot.display ∧
    '?' ∉ (puzzled.snapshot.showNode 5).toList ∧ 5 ∈ puzzled.snapshot.accepting := by
  obtain ⟨hfinds, hrefers, hdisplay, hwritten, haccepting⟩ :=
    lookups_find_live_nodes (a := puzzled) ⟨_, rfl⟩
  have hvalues : (puzzled.node? 5).map (fun n => (n.name, n.accepting)) = some ("2,4", true) := by
    decide +kernel
  have hlive : ∀ q < 6, puzzled.isLive q = true → q ∈ [0, 1, 3, 5] := by decide +kernel
  obtain ⟨n, hn, heq⟩ := Option.map_eq_some_iff.1 hvalues
  obtain ⟨hname, hacc⟩ := Prod.mk.inj heq
  have hentry := (hfinds 5).2.1 n hn
  rw [hname, hacc] at hentry
  have habsent {q : NodeId} (hq : puzzled.isLive q = false) : puzzled.snapshot.node? q = none := by
    rw [← Option.not_isSome_iff_eq_none, (hfinds q).1, hq]
    decide
  refine ⟨hentry, habsent (by decide +kernel), habsent (by decide +kernel), hrefers _ (Or.inl rfl),
    hdisplay _ fun q hq => if_pos (hlive q ?_ hq), hwritten 5 (isLive_iff.2 ⟨n, hn⟩), ?_⟩
  · obtain ⟨m, hm⟩ := isLive_iff.1 hq
    exact Arena.lt_size_of_get? hm
  · exact (haccepting _ (((hfinds 5).2.2 _).1 hentry).1).1 rfl

end Automaton

end StateMerging
