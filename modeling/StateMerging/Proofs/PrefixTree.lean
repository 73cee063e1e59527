import StateMerging.Proofs.Sentences
import Mathlib.Data.List.Infix

/-!
# Ingestion builds the prefix tree

In a tree every live node is reached from the start node by exactly one list of tokens
(`IsTree`).  The empty automaton is a tree, and it stays one when a fresh node or a final node is
added.  The walk of a sentence adds exactly the prefixes of its tokens to what the tree spells, and
its end adds exactly the tokens to what the tree accepts.

* `path_grow_iff`: the new paths are the ones to the fresh node.
* `IsTree.grow`, `IsTree.markFinal`: each elementary change keeps a tree.
* `IsTree.ingestTokens`, `IsTree.accepts_ingestTokens_iff`: one sentence.
* `isPrefixTree_ingestAll`: the sentences that the empty automaton ingests become their prefix tree.
-/

namespace StateMerging

/-- One more value is stored, under the next handle. -/
theorem Arena.count_eq_succ {α : Type} {a b : Arena α}
    (h : ∀ i, b.isLive i = true ↔ i = a.size ∨ a.isLive i = true) : b.count = a.count + 1 := by
  have hhandles : b.handles = Insert.insert a.size a.handles := by
    ext i
    rw [Finset.mem_insert, mem_handles, mem_handles, h]
  have hnew : a.size ∉ a.handles := by
    intro hmem
    obtain ⟨x, hx⟩ := isLive_iff.1 (mem_handles.1 hmem)
    exact Nat.lt_irrefl _ (lt_size_of_get? hx)
  rw [count_eq_card, hhandles, Finset.card_insert_of_notMem hnew, count_eq_card]

namespace Automaton

variable {a b : Automaton} {p q r : NodeId} {t s : String} {u v w : List String}
  {sentences : List String}

/-! ## Paths -/

theorem Path.of_append (h : a.Path p (v ++ w) q) : ∃ r, a.Path p v r ∧ a.Path r w q := by
  induction v generalizing p with
  | nil => exact ⟨p, .nil p, h⟩
  | cons t v ih =>
    cases h with
    | cons he hrest =>
      obtain ⟨r, hv, hw⟩ := ih hrest
      exact ⟨r, .cons he hv, hw⟩

theorem Path.of_edges (hedges : ∀ e, b.edge? e = a.edge? e) (h : a.Path p w q) :
    b.Path p w q := by
  induction h with
  | nil q => exact .nil q
  | cons he _ ih => exact .cons ((hedges _).trans he) ih

theorem path_markFinal_iff : (a.markFinal r).Path p w q ↔ a.Path p w q :=
  ⟨.of_edges fun e => (edge?_markFinal a r e).symm, .of_edges fun e => edge?_markFinal a r e⟩

namespace WellFormed

theorem isLive_of_path (ha : a.WellFormed) (hp : a.isLive p = true) (h : a.Path p w q) :
    a.isLive q = true := by
  induction h with
  | nil => exact hp
  | cons he _ ih => exact ih (ha.target_live _ _ he)

theorem path_of_follow (ha : a.WellFormed) (h : a.follow p w = some q) : a.Path p w q := by
  induction w generalizing p with
  | nil =>
    rw [← Option.some.inj h]
    exact .nil p
  | cons t w ih =>
    obtain ⟨r, hr, hw⟩ := Option.bind_eq_some_iff.1 h
    exact Path.arc_cons (ha.arc_of_successor hr) (ih hw)

/-- No edge leaves the fresh node. -/
theorem path_grow_size (ha : a.WellFormed) (hq : a.isLive q = true)
    (h : (a.grow q t).Path a.nodes.size w r) : w = [] ∧ r = a.nodes.size := by
  generalize hp : a.nodes.size = p at h
  cases h with
  | nil => exact ⟨rfl, rfl⟩
  | cons he _ =>
    rcases arc_grow_iff.1 (arc_of_edge? he) with harc | ⟨hs, -⟩
    · exact absurd hp.symm (ne_size_of_isLive (ha.isLive_source harc))
    · exact absurd (hs.symm.trans hp.symm) (ne_size_of_isLive hq)

/-- The new paths are the ones to the fresh node. -/
theorem path_grow_iff (ha : a.WellFormed) (hq : a.isLive q = true) (hp : a.isLive p = true)
    (hfree : a.successor q t = none) :
    (a.grow q t).Path p w r ↔
      a.Path p w r ∨ (r = a.nodes.size ∧ ∃ v, a.Path p v q ∧ w = v ++ [t]) := by
  have hext := ha.isExtension_grow hq hfree
  constructor
  · intro h
    induction h with
    | nil p => exact Or.inl (.nil p)
    | @cons e x w r he hrest ih =>
      rcases arc_grow_iff.1 (arc_of_edge? he) with harc | ⟨hs, hl, ht⟩
      · rcases ih (ha.isLive_target harc) with h | ⟨hr, v, hv, rfl⟩
        · exact Or.inl (Path.arc_cons harc h)
        · exact Or.inr ⟨hr, x.label :: v, Path.arc_cons harc hv, rfl⟩
      · rw [ht] at hrest
        obtain ⟨rfl, hr⟩ := ha.path_grow_size hq hrest
        exact Or.inr ⟨hr, [], hs ▸ .nil _, by rw [hl, List.nil_append]⟩
  · rintro (h | ⟨rfl, v, hv, rfl⟩)
    · exact hext.path h
    · exact (hext.path hv).append (Path.arc_cons arc_grow_size (.nil _))

end WellFormed

/-- Some path from the start node spells the tokens. -/
def Spells (a : Automaton) (w : List String) : Prop := ∃ q, a.Path a.start w q

theorem Spells.of_prefix (h : a.Spells w) (hv : v <+: w) : a.Spells v := by
  obtain ⟨u, rfl⟩ := hv
  obtain ⟨q, hq⟩ := h
  obtain ⟨r, hr, -⟩ := hq.of_append
  exact ⟨r, hr⟩

/-! ## Sizes and final nodes -/

theorem size_grow (a : Automaton) (q : NodeId) (t : String) : (a.grow q t).size = a.size + 1 :=
  Arena.count_eq_succ fun _ => isLive_grow_iff

theorem start_grow (a : Automaton) (q : NodeId) (t : String) : (a.grow q t).start = a.start := rfl

theorem edgeCount_grow (a : Automaton) (q : NodeId) (t : String) :
    (a.grow q t).edgeCount = a.edgeCount + 1 := by
  refine Arena.count_eq_succ fun e => ?_
  rw [Arena.isLive, show (a.grow q t).edges.get? e = _ from edge?_grow e]
  by_cases he : e = a.edges.size
  · simp [he]
  · simp [he, edge?, Arena.isLive]

theorem size_markFinal (a : Automaton) (q : NodeId) : (a.markFinal q).size = a.size := by
  rw [size, size, Arena.count_eq_card, Arena.count_eq_card]
  congr 1
  ext p
  rw [Arena.mem_handles, Arena.mem_handles]
  exact iff_of_eq (congrArg (· = true) (isLive_markFinal a q p))

theorem edgeCount_markFinal (a : Automaton) (q : NodeId) :
    (a.markFinal q).edgeCount = a.edgeCount := by
  unfold markFinal
  split <;> rfl

theorem finals_extend (a : Automaton) (q : NodeId) (u : List String) :
    (a.extend q u).2.finals = a.finals := by
  induction u generalizing a q with
  | nil => rfl
  | cons t u ih =>
    cases hs : a.successor q t with
    | some p => rw [extend_of_successor u hs, ih]
    | none =>
      rw [extend_of_grow u hs, ih]
      rfl

/-- Ingestion makes the end of the walk final, and no other node. -/
theorem WellFormed.mem_finals_ingestTokens_iff (ha : a.WellFormed) :
    q ∈ (a.ingestTokens w).finals ↔ q = (a.extend a.start w).1 ∨ q ∈ a.finals := by
  have hlive := (extend_spec ha ha.start_live w).2.2.1
  rw [ingestTokens, mem_finals_markFinal, finals_extend, and_iff_left hlive]

/-! ## Trees -/

/-- Every live node is reached from the start node by exactly one list of tokens. -/
structure IsTree (a : Automaton) : Prop extends a.WellFormed where
  /-- A list of tokens reaches at most one node. -/
  isDeterministic : a.isDeterministic = true
  /-- A live node is reached. -/
  reached : ∀ q, a.isLive q = true → ∃ w, a.Path a.start w q
  /-- A node is reached by at most one list of tokens. -/
  path_unique : ∀ v w q, a.Path a.start v q → a.Path a.start w q → v = w
  /-- Every node but the start node has one edge to it. -/
  edgeCount_eq : a.edgeCount + 1 = a.size

theorem path_empty_iff : empty.Path p w q ↔ w = [] ∧ p = q := by
  constructor
  · intro h
    cases h with
    | nil => exact ⟨rfl, rfl⟩
    | cons he _ => cases he
  · rintro ⟨rfl, rfl⟩
    exact .nil p

theorem isTree_empty : empty.IsTree where
  toWellFormed := coherent_empty.toWellFormed
  isDeterministic := by decide
  reached q hq := by
    obtain ⟨n, hn⟩ := isLive_iff.1 hq
    have hstart : q = empty.start := Nat.lt_one_iff.1 (Arena.lt_size_of_get? hn)
    exact ⟨[], hstart ▸ .nil _⟩
  path_unique v w q hv hw := by rw [(path_empty_iff.1 hv).1, (path_empty_iff.1 hw).1]
  edgeCount_eq := by decide

theorem IsExtension.isDeterministic (k : IsExtension a b) (ha : a.isDeterministic = true) :
    b.isDeterministic = true := by
  rw [isDeterministic_iff] at ha ⊢
  intro q
  by_contra hq
  have hqa := k.isNondeterministic q (Bool.not_eq_false _ ▸ hq)
  rw [ha q] at hqa
  cases hqa

namespace IsTree

theorem follow_eq_some_iff (ha : a.IsTree) : a.follow p w = some q ↔ a.Path p w q :=
  ⟨ha.path_of_follow, ha.follow_of_path ha.isDeterministic⟩

theorem isLive (ha : a.IsTree) (hv : a.Path a.start v q) : a.isLive q = true :=
  ha.isLive_of_path ha.start_live hv

/-- A tree gains the path to the fresh node. -/
theorem path_grow_iff (ha : a.IsTree) (hv : a.Path a.start v q) (hfree : a.successor q t = none) :
    (a.grow q t).Path a.start w r ↔
      a.Path a.start w r ∨ (r = a.nodes.size ∧ w = v ++ [t]) := by
  rw [ha.toWellFormed.path_grow_iff (ha.isLive hv) ha.start_live hfree]
  refine or_congr_right (and_congr_right fun _ => ⟨?_, ?_⟩)
  · rintro ⟨u, hu, rfl⟩
    rw [ha.path_unique u v q hu hv]
  · rintro rfl
    exact ⟨v, hv, rfl⟩

theorem grow (ha : a.IsTree) (hv : a.Path a.start v q) (hfree : a.successor q t = none) :
    (a.grow q t).IsTree where
  toWellFormed := ha.toWellFormed.grow (ha.isLive hv)
  isDeterministic := (ha.isExtension_grow (ha.isLive hv) hfree).isDeterministic ha.isDeterministic
  reached p hp := by
    rcases isLive_grow_iff.1 hp with rfl | hp
    · exact ⟨v ++ [t], (ha.path_grow_iff hv hfree).2 (Or.inr ⟨rfl, rfl⟩)⟩
    · obtain ⟨w, hw⟩ := ha.reached p hp
      exact ⟨w, (ha.path_grow_iff hv hfree).2 (Or.inl hw)⟩
  path_unique u w r hu hw := by
    have hold {u : List String} (h : a.Path a.start u r) : r ≠ a.nodes.size :=
      ne_size_of_isLive (ha.isLive h)
    rcases (ha.path_grow_iff hv hfree).1 hu with hu | ⟨hr, hu⟩
    · rcases (ha.path_grow_iff hv hfree).1 hw with hw | ⟨hr, -⟩
      · exact ha.path_unique u w r hu hw
      · exact absurd hr (hold hu)
    · rcases (ha.path_grow_iff hv hfree).1 hw with hw | ⟨-, hw⟩
      · exact absurd hr (hold hw)
      · rw [hu, hw]
  edgeCount_eq := by rw [edgeCount_grow, size_grow, ha.edgeCount_eq]

theorem markFinal (ha : a.IsTree) (q : NodeId) : (a.markFinal q).IsTree where
  toWellFormed := ha.toWellFormed.markFinal q
  isDeterministic := (ha.isExtension_markFinal q).isDeterministic ha.isDeterministic
  reached p hp := by
    rw [isLive_markFinal] at hp
    obtain ⟨w, hw⟩ := ha.reached p hp
    exact ⟨w, (a.markFinal_fields q).1 ▸ path_markFinal_iff.2 hw⟩
  path_unique v w p hv hw := by
    rw [(a.markFinal_fields q).1] at hv hw
    exact ha.path_unique v w p (path_markFinal_iff.1 hv) (path_markFinal_iff.1 hw)
  edgeCount_eq := by rw [edgeCount_markFinal, size_markFinal, ha.edgeCount_eq]

/-! ## One sentence -/

theorem spells_grow_iff (ha : a.IsTree) (hv : a.Path a.start v q)
    (hfree : a.successor q t = none) :
    (a.grow q t).Spells w ↔ a.Spells w ∨ w = v ++ [t] := by
  simp only [Spells, start_grow, ha.path_grow_iff hv hfree, exists_or, exists_and_right, exists_eq,
    true_and]

/-- The walk of a list of tokens from the node that `v` reaches adds the prefixes that are missing,
and no other. -/
theorem extend (ha : a.IsTree) (hv : a.Path a.start v q) (u : List String) :
    (a.extend q u).2.IsTree ∧
      ∀ w, (a.extend q u).2.Spells w ↔ a.Spells w ∨ w <+: v ++ u := by
  induction u generalizing a q v with
  | nil =>
    refine ⟨ha, fun w => ?_⟩
    rw [List.append_nil]
    refine ⟨Or.inl, ?_⟩
    rintro (h | h)
    · exact h
    · exact Spells.of_prefix ⟨q, hv⟩ h
  | cons t u ih =>
    cases hs : a.successor q t with
    | some p =>
      have hp : a.Path a.start (v ++ [t]) p :=
        hv.append (Path.arc_cons (ha.arc_of_successor hs) (.nil p))
      rw [extend_of_successor u hs]
      simpa using ih ha hp
    | none =>
      have hp : (a.grow q t).Path a.start (v ++ [t]) a.nodes.size :=
        (ha.path_grow_iff hv hs).2 (Or.inr ⟨rfl, rfl⟩)
      obtain ⟨htree, hspells⟩ := ih (ha.grow hv hs) hp
      rw [extend_of_grow u hs]
      refine ⟨htree, fun w => ?_⟩
      rw [hspells, ha.spells_grow_iff hv hs, List.append_assoc, List.singleton_append, or_assoc]
      refine or_congr_right ⟨?_, Or.inr⟩
      rintro (rfl | h)
      · exact ⟨u, by simp⟩
      · exact h

theorem ingestTokens (ha : a.IsTree) (u : List String) :
    (a.ingestTokens u).IsTree ∧ ∀ w, (a.ingestTokens u).Spells w ↔ a.Spells w ∨ w <+: u := by
  obtain ⟨htree, hspells⟩ := ha.extend (.nil a.start) u
  refine ⟨htree.markFinal _, fun w => ?_⟩
  rw [← List.nil_append u, ← hspells]
  refine exists_congr fun q => ?_
  rw [Automaton.ingestTokens, (markFinal_fields _ _).1]
  exact path_markFinal_iff

/-- A sentence adds its tokens to what a tree accepts, and nothing else. -/
theorem accepts_ingestTokens_iff (ha : a.IsTree) (u : List String) :
    (a.ingestTokens u).Accepts w ↔ a.Accepts w ∨ w = u := by
  obtain ⟨-, hext, hnew⟩ := ingestTokens_spec ha.toWellFormed u
  have hb := (ha.ingestTokens u).1
  constructor
  · rintro ⟨q, hq, hpath⟩
    have hunique {v : List String} (hv : (a.ingestTokens u).Path a.start v q) : w = v := by
      rw [← hext.start_eq] at hv
      exact hb.path_unique w v q hpath hv
    rcases ha.mem_finals_ingestTokens_iff.1 hq with rfl | hq
    · obtain ⟨-, -, -, hu⟩ := Automaton.extend_spec ha.toWellFormed ha.start_live u
      exact Or.inr (hunique (path_markFinal_iff.2 hu))
    · -- The only path to an old final node is an old one.
      obtain ⟨v, hv⟩ := ha.reached q (ha.isLive_of_mem_finals hq)
      rw [hunique (hext.path hv)]
      exact Or.inl ⟨q, hq, hv⟩
  · rintro (h | rfl)
    · exact hext.accepts h
    · exact hnew

/-! ## Several sentences -/

theorem ingestAll (ha : a.IsTree) (sentences : List String) :
    (a.ingestAll sentences).IsTree ∧
      (∀ w, (a.ingestAll sentences).Spells w ↔
        a.Spells w ∨ ∃ s ∈ sentences, w <+: Text.tokens s) ∧
      ∀ w, (a.ingestAll sentences).Accepts w ↔
        a.Accepts w ∨ ∃ s ∈ sentences, Text.tokens s = w := by
  induction sentences generalizing a with
  | nil =>
    refine ⟨ha, fun w => ?_, fun w => ?_⟩
    · simp [Automaton.ingestAll]
    · simp [Automaton.ingestAll]
  | cons s sentences ih =>
    obtain ⟨hb, hspells⟩ := ha.ingestTokens (Text.tokens s)
    obtain ⟨htree, hspelled, haccepts⟩ := ih hb
    refine ⟨htree, fun w => (hspelled w).trans ?_, fun w => (haccepts w).trans ?_⟩
    · rw [hspells, or_assoc, List.exists_mem_cons_iff]
    · rw [ha.accepts_ingestTokens_iff, or_assoc, List.exists_mem_cons_iff, eq_comm]

/-- Nodes are counted by the lists of tokens that reach them. -/
theorem card_eq (ha : a.IsTree) {nodes : Finset NodeId} {words : Finset (List String)}
    (hwords : ∀ w ∈ words, ∃ q ∈ nodes, a.Path a.start w q)
    (hnodes : ∀ q ∈ nodes, ∃ w ∈ words, a.Path a.start w q) : words.card = nodes.card := by
  choose! f hmem hpath using hwords
  refine Finset.card_bij (fun w _ => f w) hmem (fun v hv w hw heq => ?_) fun q hq => ?_
  · exact ha.path_unique v w (f w) (heq ▸ hpath v hv) (hpath w hw)
  · obtain ⟨w, hw, hq⟩ := hnodes q hq
    have hf := ha.follow_eq_some_iff.2 (hpath w hw)
    rw [ha.follow_eq_some_iff.2 hq] at hf
    exact ⟨w, hw, (Option.some.inj hf).symm⟩

theorem size_eq_card (ha : a.IsTree) {words : Finset (List String)}
    (hwords : ∀ w, w ∈ words ↔ a.Spells w) : a.size = words.card := by
  rw [size, Arena.count_eq_card]
  refine (ha.card_eq (fun w hw => ?_) fun q hq => ?_).symm
  · obtain ⟨q, hq⟩ := (hwords w).1 hw
    exact ⟨q, Arena.mem_handles.2 (ha.isLive hq), hq⟩
  · obtain ⟨w, hw⟩ := ha.reached q (Arena.mem_handles.1 hq)
    exact ⟨w, (hwords w).2 ⟨q, hw⟩, hw⟩

theorem finals_size_eq_card (ha : a.IsTree) {words : Finset (List String)}
    (hwords : ∀ w, w ∈ words ↔ a.Accepts w) : a.finals.size = words.card := by
  rw [SortedSet.size, ← List.toFinset_card_of_nodup (SortedSet.nodup _)]
  refine (ha.card_eq (fun w hw => ?_) fun q hq => ?_).symm
  · obtain ⟨q, hq, hpath⟩ := (hwords w).1 hw
    exact ⟨q, List.mem_toFinset.2 hq, hpath⟩
  · have hfinal := List.mem_toFinset.1 hq
    obtain ⟨w, hw⟩ := ha.reached q (ha.isLive_of_mem_finals hfinal)
    exact ⟨w, (hwords w).2 ⟨q, hfinal, hw⟩, hw⟩

theorem recognizes_iff (ha : a.IsTree) : a.Recognizes w ↔ a.Accepts w := by
  refine ⟨?_, ha.recognizes ha.isDeterministic⟩
  rintro ⟨q, n, hq, hn, haccepting⟩
  exact ⟨q, (ha.mem_finals q).2 ⟨n, hn, haccepting⟩, ha.follow_eq_some_iff.1 hq⟩

end IsTree

/-! ## The prefix tree of a sample -/

/-- The lists of tokens that some sentence starts with, and the empty one. -/
def prefixes (sentences : List String) : Finset (List String) :=
  ([] :: sentences.flatMap fun s => (Text.tokens s).inits).toFinset

theorem mem_prefixes : w ∈ prefixes sentences ↔ w = [] ∨ ∃ s ∈ sentences, w <+: Text.tokens s := by
  simp [prefixes]

/-- The automaton is the prefix tree of the tokens of the sentences. -/
structure IsPrefixTree (a : Automaton) (sentences : List String) : Prop where
  /-- The lists of tokens that can be followed are the prefixes. -/
  follow_iff : ∀ w, (∃ q, a.follow a.start w = some q) ↔
    w = [] ∨ ∃ s ∈ sentences, w <+: Text.tokens s
  /-- The ones that end in an accepting node are the sentences. -/
  recognizes_iff : ∀ w, a.Recognizes w ↔ ∃ s ∈ sentences, Text.tokens s = w
  /-- Distinct prefixes lead to distinct nodes. -/
  follow_inj : ∀ v w q, a.follow a.start v = some q → a.follow a.start w = some q → v = w
  /-- Every live node is reached by exactly one prefix. -/
  exists_unique_prefix : ∀ q, a.isLive q = true → ∃! w, a.follow a.start w = some q
  /-- There are as many nodes as prefixes. -/
  size_eq : a.size = (prefixes sentences).card
  /-- There is one edge fewer. -/
  edgeCount_eq : a.edgeCount = a.size - 1
  /-- There are as many final nodes as there are distinct sentences. -/
  finals_size_eq : a.finals.size = (sentences.map Text.tokens).toFinset.card
  /-- No node is nondeterministic. -/
  isDeterministic : a.isDeterministic = true

theorem spells_empty_iff : empty.Spells w ↔ w = [] := by
  simp only [Spells, path_empty_iff, exists_and_left, exists_eq', and_true]

theorem not_accepts_empty : ¬ empty.Accepts w := by
  rintro ⟨q, hq, -⟩
  exact SortedSet.not_mem_empty q hq

/-- The empty automaton turns the sentences that it ingests into their prefix tree. -/
theorem isPrefixTree_ingestAll (sentences : List String) :
    (empty.ingestAll sentences).IsPrefixTree sentences := by
  obtain ⟨ha, hspells, haccepts⟩ := isTree_empty.ingestAll sentences
  simp only [spells_empty_iff] at hspells
  simp only [not_accepts_empty, false_or] at haccepts
  exact
    { follow_iff := fun w => by
        rw [← hspells]
        exact exists_congr fun q => ha.follow_eq_some_iff
      recognizes_iff := fun w => ha.recognizes_iff.trans (haccepts w)
      follow_inj := fun v w q hv hw =>
        ha.path_unique v w q (ha.path_of_follow hv) (ha.path_of_follow hw)
      exists_unique_prefix := fun q hq => by
        obtain ⟨w, hw⟩ := ha.reached q hq
        refine ⟨w, ha.follow_eq_some_iff.2 hw, fun v hv => ?_⟩
        exact ha.path_unique v w q (ha.path_of_follow hv) hw
      size_eq := ha.size_eq_card fun w => mem_prefixes.trans (hspells w).symm
      edgeCount_eq := by rw [← ha.edgeCount_eq, Nat.add_sub_cancel]
      finals_size_eq := ha.finals_size_eq_card fun w => by simp [haccepts]
      isDeterministic := ha.isDeterministic }

end Automaton

end StateMerging
