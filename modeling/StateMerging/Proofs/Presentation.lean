import Mathlib.Order.Bounds.Basic
import StateMerging.Proofs.Changes

/-!
# Nothing is lost when edges are combined

The edges of a snapshot are gathered by their endpoints, in the order of the first edge between each
pair, and the labels of a pair are joined into one text.  The text can be split again, because
labels are tokens: no label holds the space of a separator, so that a separator is found where it
was put and nowhere else, even if labels begin or end with commas of their own.

* `pairwise_eraseDups_map`: in an ordered list the first member of a kind comes before all members
  of the kinds behind it.
* `Text.split_intercalate`: texts without spaces are read back from their joined text.
* `Coherent.hasTokenLabels_performAll`: on every run the labels of the edges are tokens.
* `gather_eq_combined`: the pairs may be enumerated in any order before they are sorted.
* `combined_lists_handles`: the labels in a row are those of its edges, one for each.
* `combined_is_lossless`: the rows of the table determine the edges.
-/

namespace StateMerging

/-! ## First members of a kind -/

/-- If a relation holds along a list, the first member of a kind stands in it to every member of a
kind that begins later. -/
theorem pairwise_eraseDups_map {α β : Type} [BEq β] [LawfulBEq β] {r : α → α → Prop} {f : α → β}
    {l : List α} (h : l.Pairwise r) :
    (l.map f).eraseDups.Pairwise fun b c => ∃ x ∈ l, f x = b ∧ ∀ y ∈ l, f y = c → r x y := by
  induction hlen : l.length using Nat.strongRecOn generalizing l with
  | ind n ih =>
    cases l with
    | nil => simp
    | cons x l =>
      rw [List.pairwise_cons] at h
      -- What is left after the kind of the first member, as a shorter list.
      have hrest : (l.map f).filter (fun b => !b == f x) = (l.filter fun y => !f y == f x).map f :=
        List.filter_map
      have hlt : (l.filter fun y => !f y == f x).length < n :=
        hlen ▸ Nat.lt_succ_of_le (List.length_filter_le _ _)
      rw [List.map_cons, List.eraseDups_cons, hrest, List.pairwise_cons]
      refine ⟨fun c hc => ⟨x, by simp, rfl, fun y hy hyc => ?_⟩, ?_⟩
      · obtain ⟨z, hz, rfl⟩ := List.mem_map.1 (List.mem_eraseDups.1 hc)
        have hne : f z ≠ f x := by simpa using (List.mem_filter.1 hz).2
        rcases List.mem_cons.1 hy with rfl | hy
        · exact absurd hyc.symm hne
        · exact h.1 y hy
      · refine (ih _ hlt (h.2.filter _) rfl).imp_of_mem fun {b c} _ hc ⟨y, hy, hyb, hbefore⟩ => ?_
        obtain ⟨w, hw, rfl⟩ := List.mem_map.1 (List.mem_eraseDups.1 hc)
        have hne : f w ≠ f x := by simpa using (List.mem_filter.1 hw).2
        refine ⟨y, List.mem_cons_of_mem _ (List.mem_filter.1 hy).1, hyb, fun z hz hzc => ?_⟩
        rcases List.mem_cons.1 hz with rfl | hz
        · exact absurd hzc.symm hne
        · exact hbefore z (List.mem_filter.2 ⟨hz, by simpa [hzc] using hne⟩) hzc

/-! ## Splitting a joined text -/

namespace Text

open String.Slice.Pattern String.Slice.Pattern.Model

theorem separator_ne_append {w behind rest : List Char} (hw : w ≠ []) (hspace : ' ' ∉ w)
    (hbehind : behind.head? ≠ some ' ') : ',' :: ' ' :: rest ≠ w ++ behind := by
  intro h
  match w, hw with
  | [c], _ =>
    obtain ⟨-, rfl⟩ := List.cons.inj h
    exact hbehind rfl
  | c :: d :: w, _ =>
    obtain ⟨-, h⟩ := List.cons.inj h
    obtain ⟨rfl, -⟩ := List.cons.inj h
    simp at hspace

/-- A separator does not begin inside a part without spaces, unless a space follows the part. -/
theorem not_matchesAt_of_lt {s : String.Slice} {p q r : s.Pos} {before part behind : String}
    (hp : p.Splits before (part ++ behind)) (hq : q.Splits (before ++ part) behind)
    (hpart : ' ' ∉ part.toList) (hbehind : behind.toList.head? ≠ some ' ') (hpr : p ≤ r)
    (hrq : r < q) : ¬ MatchesAt ", " r := by
  intro hm
  obtain ⟨_, right, hr⟩ := ForwardStringSearcher.matchesAt_iff_splits.1 hm
  obtain ⟨passed, rfl, -⟩ := (hp.le_iff_exists_eq_append hr).1 hpr
  obtain ⟨rest, hne, hrest, heq⟩ := (hr.lt_iff_exists_eq_append hq).1 hrq
  rw [String.append_assoc, String.append_right_inj] at hrest
  have hspace : ' ' ∉ rest.toList := fun hmem => hpart (by simp [hrest, hmem])
  have hchars := congrArg String.toList heq
  rw [String.toList_append, String.toList_append] at hchars
  exact separator_ne_append (by simpa using hne) hspace hbehind hchars

/-- Splitting from a position that joined texts follow gives these texts. -/
theorem modelSplit_intercalate [StrictPatternModel ", "] {s : String.Slice} {p : s.Pos}
    {before t : String} {ts : List String} (h : p.Splits before (", ".intercalate (t :: ts)))
    (hts : ∀ u ∈ t :: ts, ' ' ∉ u.toList) :
    (Model.split ", " p p (Std.le_refl _)).map (·.toSlice.copy) = t :: ts := by
  induction ts generalizing p before t with
  | nil =>
    rw [String.intercalate_singleton] at h
    have hcopy := h.copy_sliceFrom_eq
    have hend : s.endPos.Splits (before ++ t) "" := by
      rw [← h.eq_append]
      exact s.splits_endPos
    rw [← String.append_empty (s := t)] at h
    rw [split_eq_of_not_matchesAt s.endPos (by simp) fun r hpr hrq =>
      not_matchesAt_of_lt h hend (hts t (by simp)) (by simp) hpr hrq, split_endPos]
    simpa using hcopy
  | cons u ts ih =>
    rw [String.intercalate_cons_cons, String.append_assoc] at h
    have hmid := h.splits_rotateRight
    have hstop := hmid.splits_rotateRight
    obtain ⟨hpos, hcopy⟩ := String.Slice.copy_slice_eq_iff_splits.2 ⟨_, _, h, hmid⟩
    have hmatch : IsLongestMatchAt ", " h.rotateRight hmid.rotateRight :=
      ForwardStringSearcher.isLongestMatchAt_iff_splits.2 ⟨_, _, hmid, hstop⟩
    rw [split_eq_of_not_matchesAt h.rotateRight hpos fun r hpr hrq =>
        not_matchesAt_of_lt h hmid (hts t (by simp)) (by simp) hpr hrq,
      split_eq_of_isLongestMatchAt hmatch, List.map_cons,
      ih hstop fun v hv => hts v (List.mem_cons_of_mem _ hv)]
    simpa using hcopy

theorem split_intercalate {ts : List String} (hne : ts ≠ []) (hts : ∀ t ∈ ts, ' ' ∉ t.toList) :
    ((", ".intercalate ts).split ", ").toList.map (·.copy) = ts := by
  have hsep : ", " ≠ "" := by decide
  have := ForwardStringSearcher.strictPatternModel hsep
  have := ForwardStringSearcher.lawfulToForwardSearcherModel hsep
  obtain ⟨t, ts, rfl⟩ := List.exists_cons_of_ne_nil hne
  rw [String.split_eq_split_toSlice, String.Slice.toList_split_eq_splitToSubslice,
    toList_splitToSubslice_eq_modelSplit, List.map_map]
  have hstart : (", ".intercalate (t :: ts)).toSlice.startPos.Splits ""
      (", ".intercalate (t :: ts)) := by
    simp
  exact modelSplit_intercalate hstart hts

/-- The text is a token: it has characters, and none of them is blank. -/
def IsToken (t : String) : Prop := t ≠ "" ∧ ∀ c ∈ t.toList, isBlank c = false

theorem isToken_of_mem_tokens {s t : String} (h : t ∈ tokens s) : IsToken t :=
  ⟨ne_empty_of_mem_tokens h, fun _ => not_isBlank_of_mem_tokens h⟩

theorem IsToken.space_not_mem {t : String} (h : IsToken t) : ' ' ∉ t.toList := by
  intro hmem
  have hblank := h.2 ' ' hmem
  revert hblank
  decide

end Text

/-! ## Labels are tokens -/

namespace Automaton

variable {a b : Automaton} {h : NodeId → NodeId} {p q r : NodeId} {l : String} {w : List String}

/-- The labels of the edges are tokens. -/
def HasTokenLabels (a : Automaton) : Prop := ∀ p l q, a.Arc p l q → Text.IsToken l

/-- An edge that the walk of a list of tokens adds carries one of them. -/
theorem arc_extend_cases (harc : (a.extend q w).2.Arc p l r) : a.Arc p l r ∨ l ∈ w := by
  induction w generalizing a q with
  | nil => exact Or.inl harc
  | cons t w ih =>
    cases hs : a.successor q t with
    | some q' =>
      rw [extend_of_successor w hs] at harc
      exact (ih harc).imp_right (List.mem_cons_of_mem t)
    | none =>
      rw [extend_of_grow w hs] at harc
      rcases ih harc with harc | hmem
      · rcases arc_grow_iff.1 harc with harc | ⟨-, rfl, -⟩
        · exact Or.inl harc
        · exact Or.inr List.mem_cons_self
      · exact Or.inr (List.mem_cons_of_mem t hmem)

namespace HasTokenLabels

theorem ingest (k : a.HasTokenLabels) (s : String) : (a.ingest s).HasTokenLabels := by
  rintro p l q ⟨e, he⟩
  rw [Automaton.ingest, ingestTokens, edge?_markFinal] at he
  rcases arc_extend_cases ⟨e, he⟩ with harc | hmem
  · exact k p l q harc
  · exact Text.isToken_of_mem_tokens hmem

theorem merges (k : a.HasTokenLabels) (ha : a.WellFormed) (hm : Merges h a b) :
    b.HasTokenLabels := by
  intro p l q harc
  obtain ⟨p', q', harc', -, -⟩ := (hm.isQuotient ha).exists_arc harc
  exact k p' l q' harc'

end HasTokenLabels

theorem hasTokenLabels_empty : empty.HasTokenLabels := by
  rintro p l q ⟨e, he⟩
  simp [edge?, empty] at he

theorem Coherent.hasTokenLabels_perform (ha : a.Coherent) (k : a.HasTokenLabels) (x : Action) :
    (a.perform x).HasTokenLabels := by
  cases x with
  | ingest s => exact k.ingest s
  | step => exact k.merges ha.toWellFormed (merges_advance ha.toContract)
  | settle bound => exact k.merges ha.toWellFormed (ha.merges_settle bound)

theorem Coherent.hasTokenLabels_performAll (ha : a.Coherent) (k : a.HasTokenLabels)
    (actions : List Action) : (a.performAll actions).HasTokenLabels := by
  induction actions generalizing a with
  | nil => exact k
  | cons x actions ih => exact ih (ha.perform x) (ha.hasTokenLabels_perform k x)

theorem Reachable.hasTokenLabels (ha : a.Reachable) : a.HasTokenLabels := by
  obtain ⟨actions, rfl⟩ := ha
  exact coherent_empty.hasTokenLabels_performAll hasTokenLabels_empty actions

end Automaton

/-! ## Combined edges -/

/-- The handles of the edges that combined edges stand for. -/
def CombinedEdge.handles (c : CombinedEdge) (a : Automaton) : Set EdgeId :=
  {e | ∃ x, a.edge? e = some x ∧ x.source = c.source ∧ x.target = c.target}

namespace Snapshot

/-- The edges from the first node of a pair to the second. -/
def between (s : Snapshot) (k : NodeId × NodeId) : List (EdgeId × Edge) :=
  s.edges.filter fun (_, x) => x.source = k.1 && x.target = k.2

/-- The edges of a pair, combined, with the first one of them. -/
def group (s : Snapshot) (k : NodeId × NodeId) : Option EdgeId × CombinedEdge :=
  (((s.between k).map (·.1)).min?, ⟨k.1, k.2, (s.between k).map (·.2.label)⟩)

/-- Whether the first edge of a group is not behind that of another. -/
def startsFirst (x y : Option EdgeId × CombinedEdge) : Bool := (compare x.1 y.1).isLE

/-- The edges of pairs that come in any order, combined and sorted by the first edge of a pair. -/
def gather (s : Snapshot) (pairs : List (NodeId × NodeId)) : List CombinedEdge :=
  ((pairs.map s.group).mergeSort startsFirst).map (·.2)

/-- The rows of the table: endpoints, and the labels between them in one text. -/
def presentation (s : Snapshot) : List (NodeId × String × NodeId) :=
  s.combined.map fun c => (c.source, c.label, c.target)

/-- The pairs of nodes with an edge, in the order of the first edges. -/
def pairs (s : Snapshot) : List (NodeId × NodeId) :=
  (s.edges.map fun x => (x.2.source, x.2.target)).eraseDups

theorem startsFirst_trans (x y z : Option EdgeId × CombinedEdge) (hxy : startsFirst x y = true)
    (hyz : startsFirst y z = true) : startsFirst x z = true :=
  Std.TransCmp.isLE_trans hxy hyz

theorem startsFirst_total (x y : Option EdgeId × CombinedEdge) :
    (startsFirst x y || startsFirst y x) = true := by
  have hswap : compare y.1 x.1 = (compare x.1 y.1).swap := Std.OrientedCmp.eq_swap
  rw [startsFirst, startsFirst, hswap]
  cases compare x.1 y.1 <;> rfl

theorem combined_eq_map_group (s : Snapshot) : s.combined = s.pairs.map fun k => (s.group k).2 :=
  rfl

theorem endpoints_combined (s : Snapshot) :
    s.combined.map (fun c => (c.source, c.target)) = s.pairs := by
  simp [combined_eq_map_group, group, Function.comp_def]

end Snapshot

namespace Automaton

variable {a : Automaton} {c : CombinedEdge} {k : NodeId × NodeId} {e : EdgeId}

theorem mem_edges_snapshot {x : Edge} : (e, x) ∈ a.snapshot.edges ↔ a.edge? e = some x :=
  Arena.mem_entries

theorem mem_between : e ∈ (a.snapshot.between k).map (·.1) ↔
    e ∈ (a.snapshot.group k).2.handles a := by
  simp [Snapshot.between, Snapshot.group, CombinedEdge.handles, mem_edges_snapshot]

theorem mem_pairs : k ∈ a.snapshot.pairs ↔ ∃ l, a.Arc k.1 l k.2 := by
  rw [Snapshot.pairs, List.mem_eraseDups, List.mem_map]
  constructor
  · rintro ⟨⟨e, x⟩, hx, rfl⟩
    exact ⟨x.label, e, mem_edges_snapshot.1 hx⟩
  · rintro ⟨l, e, he⟩
    exact ⟨(e, ⟨k.1, l, k.2⟩), mem_edges_snapshot.2 he, rfl⟩

/-- A pair with an edge has a first edge. -/
theorem exists_first (hk : k ∈ a.snapshot.pairs) :
    ∃ e, (a.snapshot.group k).1 = some e ∧ IsLeast ((a.snapshot.group k).2.handles a) e := by
  obtain ⟨l, e, he⟩ := mem_pairs.1 hk
  have hmem : e ∈ (a.snapshot.between k).map (·.1) := mem_between.2 ⟨_, he, rfl, rfl⟩
  obtain ⟨f, hf⟩ := Option.isSome_iff_exists.1 (List.isSome_min?_of_mem hmem)
  obtain ⟨hleast, hle⟩ := List.min?_eq_some_iff.1 hf
  exact ⟨f, hf, mem_between.1 hleast, fun g hg => hle g (mem_between.2 hg)⟩

theorem pairwise_pairs (a : Automaton) : a.snapshot.pairs.Pairwise fun j k =>
    ∀ e f, IsLeast ((a.snapshot.group j).2.handles a) e →
      IsLeast ((a.snapshot.group k).2.handles a) f → e < f := by
  refine (pairwise_eraseDups_map (Arena.pairwise_entries a.edges)).imp ?_
  rintro j k ⟨⟨g, x⟩, hx, rfl, hbefore⟩ e f he hf
  obtain ⟨y, hy, hsource, htarget⟩ := hf.1
  have hge : e ≤ g := he.2 ⟨x, mem_edges_snapshot.1 hx, rfl, rfl⟩
  exact hge.trans_lt (hbefore (f, y) (mem_edges_snapshot.2 hy) (Prod.ext hsource htarget))

theorem nodup_pairs (a : Automaton) : a.snapshot.pairs.Nodup := by
  refine (pairwise_pairs a).imp_of_mem fun {j k} hj _ hlt hjk => ?_
  obtain ⟨e, -, he⟩ := exists_first hj
  exact (hlt e e he (hjk ▸ he)).false

/-- The pairs are told apart by their first edges. -/
theorem eq_of_isLeast {j : NodeId × NodeId} (hj : IsLeast ((a.snapshot.group j).2.handles a) e)
    (hk : IsLeast ((a.snapshot.group k).2.handles a) e) : j = k := by
  obtain ⟨x, hx, hxs, hxt⟩ := hj.1
  obtain ⟨y, hy, hys, hyt⟩ := hk.1
  obtain rfl := Option.some.inj (hx.symm.trans hy)
  exact Prod.ext (hxs.symm.trans hys) (hxt.symm.trans hyt)

/-- However the pairs come, sorting puts them in the order of the table. -/
theorem gather_eq_combined {pairs : List (NodeId × NodeId)} (h : pairs.Perm a.snapshot.pairs) :
    a.snapshot.gather pairs = a.snapshot.combined := by
  have hcombined : (a.snapshot.pairs.map a.snapshot.group).Pairwise fun x y =>
      Snapshot.startsFirst x y = true := by
    refine List.pairwise_map.2 ((pairwise_pairs a).imp_of_mem fun {j k} hj hk hlt => ?_)
    obtain ⟨e, he, hleast⟩ := exists_first hj
    obtain ⟨f, hf, hleast'⟩ := exists_first hk
    have hef : compare (some e) (some f) = .lt := Nat.compare_eq_lt.2 (hlt e f hleast hleast')
    simp only [Snapshot.startsFirst, he, hf, hef, Ordering.isLE_lt]
  have hsorted := List.pairwise_mergeSort Snapshot.startsFirst_trans Snapshot.startsFirst_total
    (pairs.map a.snapshot.group)
  have hperm := (List.mergeSort_perm (pairs.map a.snapshot.group) Snapshot.startsFirst).trans
    (h.map a.snapshot.group)
  rw [Snapshot.gather, hperm.eq_of_pairwise ?_ hsorted hcombined, List.map_map]
  · rfl
  · intro x y hx hy hxy hyx
    obtain ⟨j, hj, rfl⟩ := List.mem_map.1 (hperm.subset hx)
    obtain ⟨k, hk, rfl⟩ := List.mem_map.1 hy
    obtain ⟨e, he, hleast⟩ := exists_first hj
    obtain ⟨f, hf, hleast'⟩ := exists_first hk
    have heq := Std.LawfulEqCmp.eq_of_compare (Std.OrientedCmp.isLE_antisymm hxy hyx)
    obtain rfl : e = f := by simpa [he, hf] using heq
    rw [eq_of_isLeast hleast hleast']

/-- The labels of combined edges are those of their edges, in ascending order of the edges. -/
theorem combined_lists_handles (hc : c ∈ a.snapshot.combined) :
    ∃ es : List EdgeId, es.Pairwise (· < ·) ∧ (∀ e, e ∈ es ↔ e ∈ c.handles a) ∧
      c.labels.map some = es.map fun e => (a.edge? e).map (·.label) := by
  obtain ⟨k, -, rfl⟩ := List.mem_map.1 hc
  refine ⟨(a.snapshot.between k).map (·.1), ?_, fun e => mem_between, ?_⟩
  · exact List.pairwise_map.2 ((Arena.pairwise_entries a.edges).filter _)
  · simp only [List.map_map]
    refine List.map_congr_left fun x hx => ?_
    have he := mem_edges_snapshot.1 (List.mem_filter.1 hx).1
    simp [he]

/-! ## Reading the table -/

theorem HasTokenLabels.split_label (k : a.HasTokenLabels) (hc : c ∈ a.snapshot.combined) :
    (c.label.split ", ").toList.map (·.copy) = c.labels := by
  have hmem {l : String} : l ∈ c.labels ↔ a.Arc c.source l c.target :=
    (Snapshot.mem_labels_of_mem_combined hc).trans
      (exists_congr fun e => mem_edges_snapshot)
  have hpair : (c.source, c.target) ∈ a.snapshot.pairs := by
    rw [← Snapshot.endpoints_combined]
    exact List.mem_map_of_mem hc
  obtain ⟨l, hl⟩ := mem_pairs.1 hpair
  exact Text.split_intercalate (List.ne_nil_of_mem (hmem.2 hl)) fun t ht =>
    (k _ t _ (hmem.1 ht)).space_not_mem

/-- An edge is in the snapshot exactly if its label is among those that its row splits into. -/
theorem HasTokenLabels.exists_mem_edges_iff (k : a.HasTokenLabels) {x : Edge} :
    (∃ e, (e, x) ∈ a.snapshot.edges) ↔ ∃ t, (x.source, t, x.target) ∈ a.snapshot.presentation ∧
      x.label ∈ (t.split ", ").toList.map (·.copy) := by
  constructor
  · intro hx
    have hpair : (x.source, x.target) ∈ a.snapshot.pairs :=
      mem_pairs.2 ⟨x.label, hx.imp fun e => mem_edges_snapshot.1⟩
    rw [← Snapshot.endpoints_combined] at hpair
    obtain ⟨c, hc, heq⟩ := List.mem_map.1 hpair
    obtain ⟨hsource, htarget⟩ := Prod.mk.inj heq
    refine ⟨c.label, List.mem_map.2 ⟨c, hc, by rw [hsource, htarget]⟩, ?_⟩
    rw [k.split_label hc, Snapshot.mem_labels_of_mem_combined hc, hsource, htarget]
    exact hx
  · rintro ⟨t, ht, hlabel⟩
    obtain ⟨c, hc, heq⟩ := List.mem_map.1 ht
    simp only [Prod.mk.injEq] at heq
    obtain ⟨hsource, rfl, htarget⟩ := heq
    rw [k.split_label hc, Snapshot.mem_labels_of_mem_combined hc, hsource, htarget] at hlabel
    exact hlabel

/-- After every run: the table has one row for each pair of nodes with an edge, and its rows come in
the order of the first edges, however the pairs were enumerated.  A row has the labels of exactly
the edges between its nodes, in ascending order of the edges, and its text splits into these labels.
Automata with the same rows have the same edges between the same nodes. -/
theorem combined_is_lossless (ha : a.Reachable) :
    (a.snapshot.combined.map fun c => (c.source, c.target)).Nodup ∧
    (∀ p q, (p, q) ∈ a.snapshot.combined.map (fun c => (c.source, c.target)) ↔
      ∃ l, a.Arc p l q) ∧
    (∀ c ∈ a.snapshot.combined, ∃ e, IsLeast (c.handles a) e) ∧
    (a.snapshot.combined.Pairwise fun c d => ∀ e f, IsLeast (c.handles a) e →
      IsLeast (d.handles a) f → e < f) ∧
    (∀ pairs : List (NodeId × NodeId), pairs.Nodup →
      (∀ k, k ∈ pairs ↔ ∃ l, a.Arc k.1 l k.2) → a.snapshot.gather pairs = a.snapshot.combined) ∧
    (∀ c ∈ a.snapshot.combined,
      (∃ es : List EdgeId, es.Pairwise (· < ·) ∧ (∀ e, e ∈ es ↔ e ∈ c.handles a) ∧
        c.labels.map some = es.map fun e => (a.edge? e).map (·.label)) ∧
      (c.label.split ", ").toList.map (·.copy) = c.labels) ∧
    ∀ b : Automaton, b.Reachable →
      (∀ row, row ∈ b.snapshot.presentation ↔ row ∈ a.snapshot.presentation) →
      ∀ x, (∃ e, (e, x) ∈ b.snapshot.edges) ↔ ∃ e, (e, x) ∈ a.snapshot.edges := by
  have htokens := ha.hasTokenLabels
  have hnodup := nodup_pairs a
  refine ⟨?_, fun p q => ?_, fun c hc => ?_, ?_, fun pairs hpairs hmem => ?_, fun c hc => ?_,
    fun b hb hrows x => ?_⟩
  · rw [Snapshot.endpoints_combined]
    exact hnodup
  · rw [Snapshot.endpoints_combined, mem_pairs]
  · obtain ⟨k, hk, rfl⟩ := List.mem_map.1 hc
    obtain ⟨e, -, he⟩ := exists_first hk
    exact ⟨e, he⟩
  · exact List.pairwise_map.2 (pairwise_pairs a)
  · refine gather_eq_combined ((List.perm_ext_iff_of_nodup hpairs hnodup).2 fun k => ?_)
    rw [hmem, mem_pairs]
  · exact ⟨combined_lists_handles hc, htokens.split_label hc⟩
  · rw [hb.hasTokenLabels.exists_mem_edges_iff, htokens.exists_mem_edges_iff]
    simp only [hrows]

/-- A start node with edges for `a,` and `,` to one node, and an edge for `b` to another node that
was added between them. -/
def commas : Automaton :=
  empty.performAll [.ingest "a, x", .ingest "b y", .ingest ", x", .settle 3]

/-- The first row of `commas` is `a,, ,`, which has a comma in front of its separator and one
behind it. -/
theorem commas_rows :
    commas.snapshot.combined.map (fun c => (c.source, c.label, c.target)) =
      [(0, "a,, ,", 8), (8, "x", 7), (0, "b", 3), (3, "y", 7)] ∧
    commas.snapshot.gather [(3, 7), (0, 3), (8, 7), (0, 8)] = commas.snapshot.combined ∧
    (commas.snapshot.combined.map fun c => (c.label.split ", ").toList.map (·.copy)) =
      [["a,", ","], ["x"], ["b"], ["y"]] := by
  have hrows : commas.snapshot.combined =
      [⟨0, 8, ["a,", ","]⟩, ⟨8, 7, ["x"]⟩, ⟨0, 3, ["b"]⟩, ⟨3, 7, ["y"]⟩] := by decide +kernel
  obtain ⟨-, hpairs, -, -, hgather, hlabels, -⟩ := combined_is_lossless (a := commas) ⟨_, rfl⟩
  refine ⟨by rw [hrows]; decide +kernel, hgather _ (by decide) fun k => ?_, ?_⟩
  · rw [← hpairs, hrows]
    exact List.Perm.mem_iff (by decide)
  · rw [List.map_congr_left fun c hc => (hlabels c hc).2, hrows]
    simp only [List.map_cons, List.map_nil]

end Automaton

end StateMerging
