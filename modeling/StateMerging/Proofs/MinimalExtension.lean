import StateMerging.Proofs.Names
import StateMerging.Proofs.PrefixTree

/-!
# Ingestion adds no more than it must

The walk of a sentence takes the first edge for each token.  Edges are filed behind the ones that a
node has, so the first edge for a token stays the first (`WellFormed.successor_grow`), whether there
are others or not, and whatever could be followed is followed to the same node afterwards.  From
the first token that cannot be followed on, every token adds a node and an edge, because nothing
leaves a fresh node (`successor_grow_size`).

* `Grows.successor`, `Grows.name?`: what ingestion keeps of every node.
* `WellFormed.follow_extend`: the tokens can be followed afterwards.
* `WellFormed.exists_longest_extend`: the nodes and edges that are added are counted by the tokens
  behind the longest prefix that could be followed before.
* `WellFormed.ingestTokens_of_recognizes`: what is recognized already changes nothing.
-/

namespace StateMerging.Automaton

variable {a b : Automaton} {n : Node} {p q r : NodeId} {l t : String} {u v w : List String}

/-! ## Successors -/

/-- The edge to a fresh node is filed behind the other edges that leave its source. -/
theorem WellFormed.outEdges_grow (ha : a.WellFormed) (hp : a.node? p = some n) :
    (n.attach p a.edges.size ⟨q, t, a.nodes.size⟩).outEdges (a.grow q t).edges =
      n.outEdges a.edges ++ if q = p then [⟨q, t, a.nodes.size⟩] else [] := by
  have hold : n.outgoing.filterMap (a.grow q t).edges.get? = n.outgoing.filterMap a.edges.get? := by
    refine List.filterMap_congr fun e he => ?_
    obtain ⟨x, hx, -⟩ := (ha.mem_outgoing p n hp e).1 he
    exact (edge?_grow e).trans (if_neg (Nat.ne_of_lt (Arena.lt_size_of_get? hx)))
  have hnew : (a.grow q t).edges.get? a.edges.size = some ⟨q, t, a.nodes.size⟩ :=
    (edge?_grow a.edges.size).trans (if_pos rfl)
  by_cases hqp : q = p
  · subst hqp
    simp [Node.outEdges, Node.attach, hold, hnew]
  · simp [Node.outEdges, Node.attach, hqp, hold]

theorem WellFormed.successor_size (ha : a.WellFormed) : a.successor a.nodes.size l = none :=
  ha.successor_eq_none_iff.2 fun _ harc => ne_size_of_isLive (ha.isLive_source harc) rfl

/-- A fresh node is the successor where there was none, and nowhere else. -/
theorem WellFormed.successor_grow (ha : a.WellFormed) (hq : a.isLive q = true) (p : NodeId)
    (l : String) : (a.grow q t).successor p l =
      (a.successor p l).or (if p = q ∧ l = t then some a.nodes.size else none) := by
  by_cases hp : p = a.nodes.size
  · have hpq : p ≠ q := fun h => ne_size_of_isLive hq (h.symm.trans hp)
    have hqp : ¬ q = p := Ne.symm hpq
    rw [hp, ha.successor_size, ← hp, successor, node?_grow, if_pos hp]
    simp [Node.successor, Node.outEdges, Node.attach, hpq, hqp]
  · rw [successor, node?_grow, if_neg hp, successor]
    cases hn : a.node? p with
    | none =>
      have hpq : p ≠ q := by
        rintro rfl
        obtain ⟨m, hm⟩ := isLive_iff.1 hq
        simp [hn] at hm
      simp [hpq]
    | some n =>
      rw [Option.map_some, Option.bind_some, Option.bind_some, Node.successor, Node.successor,
        ha.outEdges_grow hn, List.find?_append, Option.map_or]
      congr 1
      by_cases hqp : q = p
      · by_cases hlt : l = t <;> simp [hqp, hlt, Ne.symm, eq_comm]
      · simp [hqp, Ne.symm hqp]

theorem WellFormed.successor_grow_of_some (ha : a.WellFormed) (hq : a.isLive q = true)
    (hr : a.successor p l = some r) : (a.grow q t).successor p l = some r := by
  rw [ha.successor_grow hq, hr, Option.some_or]

theorem WellFormed.successor_grow_self (ha : a.WellFormed) (hq : a.isLive q = true)
    (hfree : a.successor q t = none) : (a.grow q t).successor q t = some a.nodes.size := by
  rw [ha.successor_grow hq, hfree, Option.none_or, if_pos ⟨rfl, rfl⟩]

/-- Nothing leaves a fresh node. -/
theorem WellFormed.successor_grow_size (ha : a.WellFormed) (hq : a.isLive q = true) :
    (a.grow q t).successor a.nodes.size l = none := by
  have hne : ¬ (a.nodes.size = q ∧ l = t) := fun h => ne_size_of_isLive hq h.1.symm
  rw [ha.successor_grow hq, ha.successor_size, Option.none_or, if_neg hne]

@[simp] theorem successor_markFinal (a : Automaton) (q p : NodeId) (l : String) :
    (a.markFinal q).successor p l = a.successor p l := by
  have hedges : (a.markFinal q).edges = a.edges := by
    unfold markFinal
    split <;> rfl
  rw [successor, successor, node?_markFinal, hedges]
  split
  · cases a.node? p <;> rfl
  · rfl

@[simp] theorem follow_markFinal (a : Automaton) (q p : NodeId) (w : List String) :
    (a.markFinal q).follow p w = a.follow p w := by
  induction w generalizing p with
  | nil => rfl
  | cons t w ih => simp only [follow, successor_markFinal, ih]

/-! ## What is kept -/

theorem Grows.successor (k : Grows a b) (ha : a.WellFormed) (hr : a.successor p l = some r) :
    b.successor p l = some r := by
  induction k with
  | refl => exact hr
  | grow k live _ ih => exact (k.wellFormed ha).successor_grow_of_some live ih
  | mark _ q ih => rw [successor_markFinal, ih]

theorem Grows.name?_eq (k : Grows a b) (hp : a.isLive p = true) : b.name? p = a.name? p := by
  induction k with
  | refl => rfl
  | @grow b q t k _ _ ih =>
    have hlive : b.isLive p = true := k.lineage.isLive p hp
    rw [name?_grow, if_neg (ne_size_of_isLive hlive), ih]
  | mark _ q ih => rw [name?_markFinal, ih]

/-! ## The walk of a sentence -/

theorem WellFormed.follow_extend (ha : a.WellFormed) (hq : a.isLive q = true) (w : List String) :
    (a.extend q w).2.follow q w = some (a.extend q w).1 := by
  induction w generalizing a q with
  | nil => rfl
  | cons t w ih =>
    cases hs : a.successor q t with
    | some p =>
      have hp := ha.isLive_target (ha.arc_of_successor hs)
      rw [extend_of_successor w hs, follow, (grows_extend ha hp w).successor ha hs]
      exact ih ha hp
    | none =>
      have hb := ha.grow (t := t) hq
      rw [extend_of_grow w hs, follow,
        (grows_extend hb isLive_grow_size w).successor hb (ha.successor_grow_self hq hs)]
      exact ih hb isLive_grow_size

/-- The longest prefix of a list of tokens that can be followed from node `q`. -/
structure IsLongestFollowed (a : Automaton) (q : NodeId) (w u : List String) : Prop where
  /-- It is a prefix. -/
  isPrefix : u <+: w
  /-- It can be followed. -/
  followed : ∃ p, a.follow q u = some p
  /-- No longer prefix can be followed. -/
  longest : ∀ v, v <+: w → (∃ p, a.follow q v = some p) → v.length ≤ u.length

theorem isLongestFollowed_nil (hfree : ∀ t v, w = t :: v → a.successor q t = none) :
    a.IsLongestFollowed q w [] where
  isPrefix := List.nil_prefix
  followed := ⟨q, rfl⟩
  longest v hv hfollow := by
    cases v with
    | nil => exact Nat.le_refl 0
    | cons t v =>
      obtain ⟨z, rfl⟩ := hv
      obtain ⟨p, hp⟩ := hfollow
      simp [follow, hfree t (v ++ z) rfl] at hp

theorem IsLongestFollowed.cons (h : a.IsLongestFollowed p w u) (hs : a.successor q t = some p) :
    a.IsLongestFollowed q (t :: w) (t :: u) where
  isPrefix := List.cons_prefix_cons.2 ⟨rfl, h.isPrefix⟩
  followed := by simpa [follow, hs] using h.followed
  longest v hv hfollow := by
    cases v with
    | nil => exact Nat.zero_le _
    | cons s v =>
      obtain ⟨rfl, hrest⟩ := List.cons_prefix_cons.1 hv
      exact Nat.succ_le_succ (h.longest v hrest (by simpa [follow, hs] using hfollow))

theorem IsLongestFollowed.eq_nil (h : a.IsLongestFollowed q w u)
    (hfree : ∀ t, a.successor q t = none) : u = [] := by
  cases u with
  | nil => rfl
  | cons t u =>
    obtain ⟨p, hp⟩ := h.followed
    simp [follow, hfree t] at hp

/-- The walk adds a node and an edge for each token behind the longest prefix that it can follow. -/
theorem WellFormed.exists_longest_extend (ha : a.WellFormed) (hq : a.isLive q = true)
    (w : List String) : ∃ u, a.IsLongestFollowed q w u ∧
      (a.extend q w).2.size = a.size + (w.length - u.length) ∧
      (a.extend q w).2.edgeCount = a.edgeCount + (w.length - u.length) := by
  induction w generalizing a q with
  | nil => exact ⟨[], isLongestFollowed_nil (by simp), rfl, rfl⟩
  | cons t w ih =>
    cases hs : a.successor q t with
    | some p =>
      obtain ⟨u, hu, hsize, hedges⟩ := ih ha (ha.isLive_target (ha.arc_of_successor hs))
      refine ⟨t :: u, hu.cons hs, ?_, ?_⟩
      · rw [extend_of_successor w hs, hsize, List.length_cons, List.length_cons,
          Nat.add_sub_add_right]
      · rw [extend_of_successor w hs, hedges, List.length_cons, List.length_cons,
          Nat.add_sub_add_right]
    | none =>
      obtain ⟨u, hu, hsize, hedges⟩ := ih (ha.grow (t := t) hq) isLive_grow_size
      -- The fresh node is left by nothing, so all the rest is added too.
      obtain rfl := hu.eq_nil fun l => ha.successor_grow_size hq
      have hfree : a.IsLongestFollowed q (t :: w) [] := by
        refine isLongestFollowed_nil fun s v heq => ?_
        rw [← (List.cons.inj heq).1, hs]
      refine ⟨[], hfree, ?_, ?_⟩
      · rw [extend_of_grow w hs, hsize, size_grow, List.length_cons]
        simp only [List.length_nil]
        omega
      · rw [extend_of_grow w hs, hedges, edgeCount_grow, List.length_cons]
        simp only [List.length_nil]
        omega

/-! ## What is recognized already -/

theorem extend_of_follow (h : a.follow q w = some p) : a.extend q w = (p, a) := by
  induction w generalizing q with
  | nil =>
    cases h
    rfl
  | cons t w ih =>
    obtain ⟨r, hr, hw⟩ := Option.bind_eq_some_iff.1 h
    rw [extend_of_successor w hr, ih hw]

theorem WellFormed.markFinal_eq_self (ha : a.WellFormed) (hn : a.node? q = some n)
    (haccepting : n.accepting = true) : a.markFinal q = a := by
  have hnodes : a.nodes.modify q ({ · with accepting := true }) = a.nodes := by
    refine Arena.ext_get? (Arena.size_modify ..) fun p => ?_
    rw [Arena.get?_modify]
    split
    · rename_i hqp
      subst hqp
      rw [show a.nodes.get? q = some n from hn, Option.map_some, ← haccepting]
    · rfl
  have hfinals : a.finals.insert q = a.finals := by
    refine SortedSet.ext_mem fun p => ?_
    rw [SortedSet.mem_insert, or_iff_right_iff_imp]
    rintro rfl
    exact (ha.mem_finals p).2 ⟨n, hn, haccepting⟩
  rw [Automaton.markFinal, if_pos (isLive_iff.2 ⟨n, hn⟩), modifyNode, hnodes, hfinals]

theorem WellFormed.ingestTokens_of_recognizes (ha : a.WellFormed) (h : a.Recognizes w) :
    a.ingestTokens w = a := by
  obtain ⟨q, n, hq, hn, haccepting⟩ := h
  rw [Automaton.ingestTokens, extend_of_follow hq]
  exact ha.markFinal_eq_self hn haccepting

/-! ## Sentences -/

theorem WellFormed.follow_ingestTokens (ha : a.WellFormed) (w : List String) :
    (a.ingestTokens w).follow a.start w = some (a.extend a.start w).1 :=
  (follow_markFinal ..).trans (ha.follow_extend ha.start_live w)

theorem WellFormed.recognizes_ingestTokens (ha : a.WellFormed) (w : List String) :
    (a.ingestTokens w).Recognizes w := by
  obtain ⟨hwf, hext, -⟩ := ingestTokens_spec ha w
  have hend : (a.extend a.start w).1 ∈ (a.ingestTokens w).finals :=
    ha.mem_finals_ingestTokens_iff.2 (Or.inl rfl)
  obtain ⟨n, hn, haccepting⟩ := (hwf.mem_finals _).1 hend
  exact ⟨_, n, hext.start_eq ▸ ha.follow_ingestTokens w, hn, haccepting⟩

/-- A node that is live before stays accepting or not, unless the walk ends in it. -/
theorem WellFormed.accepting_ingestTokens (ha : a.WellFormed) {m : Node} (hn : a.node? q = some n)
    (hm : (a.ingestTokens w).node? q = some m) (hq : (a.extend a.start w).1 ≠ q) :
    m.accepting = n.accepting := by
  have hb := (ingestTokens_spec ha w).1
  have hfinals : q ∈ (a.ingestTokens w).finals ↔ q ∈ a.finals :=
    ha.mem_finals_ingestTokens_iff.trans (or_iff_right (Ne.symm hq))
  rw [Bool.eq_iff_iff]
  calc m.accepting = true
      ↔ q ∈ (a.ingestTokens w).finals := by simp [hb.mem_finals, hm]
    _ ↔ q ∈ a.finals := hfinals
    _ ↔ n.accepting = true := by simp [ha.mem_finals, hn]

/-- The second automaton extends the first by a list of tokens, and by no more than these need. -/
structure IsMinimalExtension (w : List String) (a b : Automaton) : Prop extends IsExtension a b where
  /-- The tokens can be followed and end in an accepting node. -/
  recognizes : b.Recognizes w
  /-- There is one more node and one more edge for each token behind the longest prefix that could
  be followed before. -/
  size_eq : ∃ u, a.IsLongestFollowed a.start w u ∧
    b.size = a.size + (w.length - u.length) ∧
    b.edgeCount = a.edgeCount + (w.length - u.length)
  /-- A live node keeps its handle and its name, and unless the tokens end in it, it stays accepting
  or not. -/
  node_kept : ∀ q n, a.node? q = some n → ∃ m, b.node? q = some m ∧ m.name = n.name ∧
    (b.follow b.start w ≠ some q → m.accepting = n.accepting)
  /-- The first edge for a label stays the first. -/
  successor_kept : ∀ q l p, a.successor q l = some p → b.successor q l = some p

theorem WellFormed.isMinimalExtension (ha : a.WellFormed) (w : List String) :
    IsMinimalExtension w a (a.ingestTokens w) := by
  obtain ⟨-, hext, -⟩ := ingestTokens_spec ha w
  have hgrows := grows_ingestTokens ha w
  refine ⟨hext, ha.recognizes_ingestTokens w, ?_, fun q n hn => ?_, fun q l p hp => ?_⟩
  · obtain ⟨u, hu, hsize, hedges⟩ := ha.exists_longest_extend ha.start_live w
    exact ⟨u, hu, (size_markFinal ..).trans hsize, (edgeCount_markFinal ..).trans hedges⟩
  · have hq : a.isLive q = true := isLive_iff.2 ⟨n, hn⟩
    obtain ⟨m, hm⟩ := isLive_iff.1 (hext.isLive q hq)
    refine ⟨m, hm, ?_, fun hne => ha.accepting_ingestTokens hn hm fun heq => hne ?_⟩
    · have hname := hgrows.name?_eq hq
      rw [name?, name?, hm, hn] at hname
      exact Option.some.inj hname
    · rw [hext.start_eq, ha.follow_ingestTokens, heq]
  · exact hgrows.successor ha hp

/-- Ingesting a sentence into the automaton of any run extends it by the tokens, and by no more than
these need; a second time it changes nothing. -/
theorem ingest_is_minimal (ha : a.Reachable) (s : String) :
    IsMinimalExtension (Text.tokens s) a (a.ingest s) ∧ (a.ingest s).ingest s = a.ingest s := by
  have hwf := ha.coherent.toWellFormed
  have hb := (ingestTokens_spec hwf (Text.tokens s)).1
  exact ⟨hwf.isMinimalExtension _,
    hb.ingestTokens_of_recognizes (hwf.recognizes_ingestTokens (Text.tokens s))⟩

/-- The node that `clash` reaches with `b` has two edges for `c`; the walk takes the first of them,
which leads back to the node, and from there `d` cannot be followed. -/
theorem clash_ingest_is_minimal :
    clash.isDeterministic = false ∧
      IsMinimalExtension ["b", "c", "c", "d", "d"] clash (clash.ingest "b c c d d") ∧
      (clash.ingest "b c c d d").size = clash.size + 2 ∧
      (clash.ingest "b c c d d").ingest "b c c d d" = clash.ingest "b c c d d" := by
  have htokens : Text.tokens "b c c d d" = ["b", "c", "c", "d", "d"] := by decide +kernel
  have h := ingest_is_minimal (a := clash) ⟨_, rfl⟩ "b c c d d"
  rw [htokens] at h
  exact ⟨by decide +kernel, h.1, by decide +kernel, h.2⟩

end StateMerging.Automaton
