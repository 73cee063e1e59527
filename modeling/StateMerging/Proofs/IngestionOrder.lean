import StateMerging.Proofs.MinimalExtension
import StateMerging.Proofs.Trim
import Mathlib.Data.Set.Function

/-!
# The order of ingestion

The nodes that are added to an automaton, the *base*, are told apart by how a walk reaches them: by
the node in which it leaves the base, and the tokens that it reads from there on.  This is the
`Site` of the node; a node of the base has the site at which nothing was read.  In the base the walk
goes along the first edge for each token, and once it has left it does not come back
(`Automaton.stray`), so that the site to which a list of tokens leads depends on the base alone
(`Automaton.siteOf`).

* `IsGraft`: every node has a site of its own, and the sites determine the edges and the first
  edges.  The base itself is such (`isGraft_self`), and a fresh node takes the site that is next on
  the walk (`IsGraft.grow`).
* `HasSites`: which sites are taken, and which of them by final nodes.  One more sentence adds the
  sites of its prefixes, and makes the last one final (`HasSites.ingestTokens`).
* `HasSites.exists_correspondence`: where the same sites are taken the automata correspond, node by
  node of one site.
* `ingestAll_order_irrelevant`: the sites do not depend on the order of the sentences.
-/

namespace StateMerging.Automaton

variable {a b c : Automaton} {p q r : NodeId} {l t : String} {u v w : List String}

/-! ## Sites -/

/-- A node of the base, and the tokens that lead on from it to what was added. -/
abbrev Site := NodeId × List String

/-- Where a walk goes on with a token: along the first edge of the base, or off the base. -/
def stray (a : Automaton) (x : Site) (t : String) : Site :=
  match x.2, a.successor x.1 t with
  | [], some p => (p, [])
  | w, _ => (x.1, w ++ [t])

/-- The site to which a list of tokens leads. -/
def siteOf (a : Automaton) (w : List String) : Site := w.foldl a.stray (a.start, [])

theorem stray_of_successor (h : a.successor q t = some p) : a.stray (q, []) t = (p, []) := by
  simp [stray, h]

theorem stray_of_no_successor (h : a.successor q t = none) : a.stray (q, []) t = (q, [t]) := by
  simp [stray, h]

theorem stray_of_ne_nil (h : w ≠ []) : a.stray (q, w) t = (q, w ++ [t]) := by
  cases w with
  | nil => exact absurd rfl h
  | cons s w => rfl

/-- A walk goes along an edge of the base, or it reads one token more off the base. -/
theorem stray_cases (a : Automaton) (x : Site) (t : String) :
    (∃ q p, x = (q, []) ∧ a.successor q t = some p ∧ a.stray x t = (p, [])) ∨
      a.stray x t = (x.1, x.2 ++ [t]) := by
  obtain ⟨q, w⟩ := x
  cases w with
  | nil =>
    cases hs : a.successor q t with
    | some p => exact Or.inl ⟨q, p, rfl, hs, stray_of_successor hs⟩
    | none => exact Or.inr (stray_of_no_successor hs)
  | cons s w => exact Or.inr (stray_of_ne_nil (List.cons_ne_nil s w))

theorem eq_of_stray_eq {x : Site} (h : a.stray x l = (q, w ++ [t])) : x = (q, w) ∧ l = t := by
  rcases a.stray_cases x l with ⟨_, _, -, -, hx⟩ | hx
  · rw [hx, Prod.mk.injEq] at h
    simp at h
  · rw [hx, Prod.mk.injEq, List.append_singleton_inj] at h
    obtain ⟨rfl, rfl, rfl⟩ := h
    exact ⟨rfl, rfl⟩

/-- What an edge looks like between sites: it is one of the base, or reads one token more. -/
def Leads (a : Automaton) (x : Site) (l : String) (y : Site) : Prop :=
  (∃ p q, a.Arc p l q ∧ x = (p, []) ∧ y = (q, [])) ∨ y = (x.1, x.2 ++ [l])

theorem leads_append_iff {x : Site} : a.Leads x l (q, w ++ [t]) ↔ x = (q, w) ∧ l = t := by
  constructor
  · rintro (⟨_, _, -, -, h⟩ | h)
    · simp at h
    · rw [Prod.mk.injEq, List.append_singleton_inj] at h
      obtain ⟨rfl, rfl, rfl⟩ := h
      exact ⟨rfl, rfl⟩
  · rintro ⟨rfl, rfl⟩
    exact Or.inr rfl

/-! ## Automata grown from a base -/

/-- The automaton `b` has grown from the base `a`, and every node of it has a site. -/
structure IsGraft (a b : Automaton) (site : NodeId → Site) : Prop extends b.WellFormed where
  start_eq : b.start = a.start
  /-- The nodes of the base are there. -/
  base : ∀ q, a.isLive q = true → b.isLive q = true ∧ site q = (q, [])
  /-- A site is taken once. -/
  injective : ∀ p q, b.isLive p = true → b.isLive q = true → site p = site q → p = q
  /-- A site off the base is taken only if the one before it is. -/
  parent : ∀ r q w t, b.isLive r = true → site r = (q, w ++ [t]) →
    ∃ p, b.isLive p = true ∧ site p = (q, w)
  arc_iff : ∀ p l q, b.isLive p = true → b.isLive q = true →
    (b.Arc p l q ↔ a.Leads (site p) l (site q))
  successor_iff : ∀ p l q, b.isLive p = true → b.isLive q = true →
    (b.successor p l = some q ↔ site q = a.stray (site p) l)

theorem isGraft_self (ha : a.WellFormed) : IsGraft a a fun q => (q, []) where
  toWellFormed := ha
  start_eq := rfl
  base q hq := ⟨hq, rfl⟩
  injective p q _ _ h := congrArg Prod.fst h
  parent r q w t _ h := by simp at h
  arc_iff p l q _ _ := by
    constructor
    · exact fun h => Or.inl ⟨p, q, h, rfl, rfl⟩
    · rintro (⟨_, _, h, hp, hq⟩ | h)
      · cases hp
        cases hq
        exact h
      · simp at h
  successor_iff p l q _ _ := by
    cases hs : a.successor p l with
    | some r => simp [stray_of_successor hs, eq_comm]
    | none => simp [stray_of_no_successor hs]

namespace IsGraft

variable {site : NodeId → Site}

/-- A node that is at the next site is the successor. -/
theorem ne_stray (k : IsGraft a b site) (hp : b.isLive p = true) (hfree : b.successor p t = none)
    (hr : b.isLive r = true) : site r ≠ a.stray (site p) t := by
  intro h
  rw [(k.successor_iff p t r hp hr).2 h] at hfree
  cases hfree

/-- Where there is no successor the next site is off the base. -/
theorem stray_eq (k : IsGraft a b site) (ha : a.WellFormed) (hp : b.isLive p = true)
    (hfree : b.successor p t = none) :
    a.stray (site p) t = ((site p).1, (site p).2 ++ [t]) := by
  rcases a.stray_cases (site p) t with ⟨q, r, -, hs, hx⟩ | hx
  · -- Otherwise it would be the site of a node of the base.
    obtain ⟨hr, hsite⟩ := k.base r (ha.isLive_target (ha.arc_of_successor hs))
    exact absurd (hsite.trans hx.symm) (k.ne_stray hp hfree hr)
  · exact hx

/-- Nor is there a node at a site behind it. -/
theorem ne_behind (k : IsGraft a b site) (ha : a.WellFormed) (hp : b.isLive p = true)
    (hfree : b.successor p t = none) (hr : b.isLive r = true) :
    site r ≠ ((site p).1, (site p).2 ++ [t] ++ [l]) := by
  intro h
  obtain ⟨q, hq, hsite⟩ := k.parent r _ _ l hr h
  exact k.ne_stray hp hfree hq (hsite.trans (k.stray_eq ha hp hfree).symm)

end IsGraft

/-! ## A fresh node -/

/-- The sites after a node has been added behind `p`. -/
def growSite (a b : Automaton) (site : NodeId → Site) (p : NodeId) (t : String) : NodeId → Site :=
  Function.update site b.nodes.size (a.stray (site p) t)

variable {site : NodeId → Site}

theorem growSite_of_isLive (hq : b.isLive q = true) : growSite a b site p t q = site q :=
  Function.update_of_ne (ne_size_of_isLive hq) _ _

theorem growSite_size : growSite a b site p t b.nodes.size = a.stray (site p) t :=
  Function.update_self ..

namespace IsGraft

theorem growSite_injective (k : IsGraft a b site) (hp : b.isLive p = true)
    (hfree : b.successor p t = none) (hq : (b.grow p t).isLive q = true)
    (hr : (b.grow p t).isLive r = true) (h : growSite a b site p t q = growSite a b site p t r) :
    q = r := by
  rcases isLive_grow_iff.1 hq with rfl | hq <;> rcases isLive_grow_iff.1 hr with rfl | hr
  · rfl
  · rw [growSite_size, growSite_of_isLive hr] at h
    exact absurd h.symm (k.ne_stray hp hfree hr)
  · rw [growSite_size, growSite_of_isLive hq] at h
    exact absurd h (k.ne_stray hp hfree hq)
  · rw [growSite_of_isLive hq, growSite_of_isLive hr] at h
    exact k.injective q r hq hr h

theorem arc_grow_iff_leads (k : IsGraft a b site) (ha : a.WellFormed) (hp : b.isLive p = true)
    (hfree : b.successor p t = none) (hq : (b.grow p t).isLive q = true)
    (hr : (b.grow p t).isLive r = true) :
    (b.grow p t).Arc q l r ↔ a.Leads (growSite a b site p t q) l (growSite a b site p t r) := by
  have hsource {q l r} (h : b.Arc q l r) : q ≠ b.nodes.size := ne_size_of_isLive (k.isLive_source h)
  have htarget {q l r} (h : b.Arc q l r) : r ≠ b.nodes.size := ne_size_of_isLive (k.isLive_target h)
  have hpm : b.nodes.size ≠ p := (ne_size_of_isLive hp).symm
  rw [arc_grow_iff]
  rcases isLive_grow_iff.1 hr with rfl | hr
  · -- Only the new edge reaches the fresh node.
    rw [growSite_size, k.stray_eq ha hp hfree, leads_append_iff]
    rcases isLive_grow_iff.1 hq with rfl | hq'
    · rw [growSite_size, k.stray_eq ha hp hfree]
      refine iff_of_false ?_ fun h => ?_
      · rintro (h | ⟨h, -⟩)
        · exact hsource h rfl
        · exact hpm h
      · simpa using congrArg Prod.snd h.1
    · rw [growSite_of_isLive hq']
      constructor
      · rintro (h | ⟨rfl, rfl, -⟩)
        · exact absurd rfl (htarget h)
        · exact ⟨rfl, rfl⟩
      · rintro ⟨h, rfl⟩
        exact Or.inr ⟨k.injective q p hq' hp h, rfl, rfl⟩
  · rw [growSite_of_isLive hr, or_iff_left fun h => ne_size_of_isLive hr h.2.2]
    rcases isLive_grow_iff.1 hq with rfl | hq
    · -- Nothing leaves the fresh node.
      rw [growSite_size, k.stray_eq ha hp hfree]
      refine iff_of_false (fun h => hsource h rfl) ?_
      rintro (⟨_, _, -, h, -⟩ | h)
      · simp at h
      · exact k.ne_behind ha hp hfree hr h
    · rw [growSite_of_isLive hq]
      exact k.arc_iff q l r hq hr

theorem successor_grow_iff_stray (k : IsGraft a b site) (ha : a.WellFormed)
    (hp : b.isLive p = true) (hfree : b.successor p t = none)
    (hq : (b.grow p t).isLive q = true) (hr : (b.grow p t).isLive r = true) :
    (b.grow p t).successor q l = some r ↔
      growSite a b site p t r = a.stray (growSite a b site p t q) l := by
  rcases isLive_grow_iff.1 hq with rfl | hq'
  · -- Nothing leaves the fresh node.
    rw [k.successor_grow_size hp, growSite_size, k.stray_eq ha hp hfree,
      stray_of_ne_nil (List.append_ne_nil_of_right_ne_nil _ (List.cons_ne_nil t []))]
    refine iff_of_false nofun ?_
    rcases isLive_grow_iff.1 hr with rfl | hr
    · rw [growSite_size, k.stray_eq ha hp hfree]
      simp
    · rw [growSite_of_isLive hr]
      exact k.ne_behind ha hp hfree hr
  · rw [growSite_of_isLive hq', k.toWellFormed.successor_grow hp]
    rcases isLive_grow_iff.1 hr with rfl | hr
    · rw [growSite_size]
      constructor
      · intro h
        rcases Option.or_eq_some_iff.1 h with h | ⟨-, h⟩
        · exact absurd rfl (ne_size_of_isLive (k.isLive_target (k.arc_of_successor h)))
        · obtain ⟨⟨rfl, rfl⟩, -⟩ := Option.ite_none_right_eq_some.1 h
          rfl
      · intro h
        rw [k.stray_eq ha hp hfree] at h
        obtain ⟨hsite, rfl⟩ := eq_of_stray_eq h.symm
        obtain rfl := k.injective q p hq' hp hsite
        rw [hfree, Option.none_or, if_pos ⟨rfl, rfl⟩]
    · rw [growSite_of_isLive hr, ← k.successor_iff q l r hq' hr, Option.or_eq_some_iff]
      refine or_iff_left fun h => ?_
      obtain ⟨-, h⟩ := Option.ite_none_right_eq_some.1 h.2
      exact ne_size_of_isLive hr (Option.some.inj h).symm

/-- A fresh node takes the site that comes next. -/
theorem grow (k : IsGraft a b site) (ha : a.WellFormed) (hp : b.isLive p = true)
    (hfree : b.successor p t = none) : IsGraft a (b.grow p t) (growSite a b site p t) where
  toWellFormed := k.toWellFormed.grow hp
  start_eq := k.start_eq
  base q hq := by
    obtain ⟨hlive, hsite⟩ := k.base q hq
    exact ⟨isLive_grow_iff.2 (Or.inr hlive), (growSite_of_isLive hlive).trans hsite⟩
  injective q r := k.growSite_injective hp hfree
  parent r q w s hr h := by
    rcases isLive_grow_iff.1 hr with rfl | hr
    · rw [growSite_size, k.stray_eq ha hp hfree, Prod.mk.injEq, List.append_singleton_inj] at h
      obtain ⟨rfl, rfl, rfl⟩ := h
      exact ⟨p, isLive_grow_iff.2 (Or.inr hp), growSite_of_isLive hp⟩
    · rw [growSite_of_isLive hr] at h
      obtain ⟨r', hr', hsite⟩ := k.parent r q w s hr h
      exact ⟨r', isLive_grow_iff.2 (Or.inr hr'), (growSite_of_isLive hr').trans hsite⟩
  arc_iff q l r := k.arc_grow_iff_leads ha hp hfree
  successor_iff q l r := k.successor_grow_iff_stray ha hp hfree

theorem markFinal (k : IsGraft a b site) (q : NodeId) : IsGraft a (b.markFinal q) site := by
  have harc {p l r} : (b.markFinal q).Arc p l r ↔ b.Arc p l r :=
    exists_congr fun e => by rw [edge?_markFinal]
  refine
    { toWellFormed := k.toWellFormed.markFinal q
      start_eq := (b.markFinal_fields q).1.trans k.start_eq
      base := ?_, injective := ?_, parent := ?_, arc_iff := ?_, successor_iff := ?_ }
  all_goals simp only [isLive_markFinal, harc, successor_markFinal]
  · exact k.base
  · exact k.injective
  · exact k.parent
  · exact k.arc_iff
  · exact k.successor_iff

end IsGraft

/-! ## Which sites are taken -/

/-- Some live node is at the site. -/
def Occupied (b : Automaton) (site : NodeId → Site) (x : Site) : Prop :=
  ∃ q, b.isLive q = true ∧ site q = x

theorem occupied_grow_iff {x : Site} : (b.grow p t).Occupied (growSite a b site p t) x ↔
    b.Occupied site x ∨ a.stray (site p) t = x := by
  constructor
  · rintro ⟨q, hq, rfl⟩
    rcases isLive_grow_iff.1 hq with rfl | hq
    · exact Or.inr growSite_size.symm
    · exact Or.inl ⟨q, hq, (growSite_of_isLive hq).symm⟩
  · rintro (⟨q, hq, rfl⟩ | rfl)
    · exact ⟨q, isLive_grow_iff.2 (Or.inr hq), growSite_of_isLive hq⟩
    · exact ⟨b.nodes.size, isLive_grow_size, growSite_size⟩

/-- The sites that the prefixes of a list of tokens lead to. -/
theorem exists_prefix_cons_iff {x y : Site} : (∃ v, v <+: t :: w ∧ v.foldl a.stray x = y) ↔
    x = y ∨ ∃ v, v <+: w ∧ v.foldl a.stray (a.stray x t) = y := by
  constructor
  · rintro ⟨v, hv, rfl⟩
    rcases List.prefix_cons_iff.1 hv with rfl | ⟨u, rfl, hu⟩
    · exact Or.inl rfl
    · exact Or.inr ⟨u, hu, rfl⟩
  · rintro (rfl | ⟨v, hv, rfl⟩)
    · exact ⟨[], List.nil_prefix, rfl⟩
    · exact ⟨t :: v, List.cons_prefix_cons.2 ⟨rfl, hv⟩, rfl⟩

/-- A walk takes the sites of the prefixes of its tokens, and ends at the last one. -/
theorem IsGraft.extend (k : IsGraft a b site) (ha : a.WellFormed) (hp : b.isLive p = true)
    (w : List String) : ∃ site', IsGraft a (b.extend p w).2 site' ∧
      (∀ q, b.isLive q = true → site' q = site q) ∧
      site' (b.extend p w).1 = w.foldl a.stray (site p) ∧
      ∀ x, (b.extend p w).2.Occupied site' x ↔
        b.Occupied site x ∨ ∃ v, v <+: w ∧ v.foldl a.stray (site p) = x := by
  induction w generalizing b site p with
  | nil =>
    refine ⟨site, k, fun q _ => rfl, rfl, fun x => (or_iff_left_of_imp ?_).symm⟩
    rintro ⟨v, hv, rfl⟩
    rw [List.prefix_nil.1 hv]
    exact ⟨p, hp, rfl⟩
  | cons t w ih =>
    have hfirst {x} (h : site p = x) : b.Occupied site x := ⟨p, hp, h⟩
    cases hs : b.successor p t with
    | some r =>
      have hr : b.isLive r = true := k.isLive_target (k.arc_of_successor hs)
      have hsite : site r = a.stray (site p) t := (k.successor_iff p t r hp hr).1 hs
      obtain ⟨site', k', hsame, hend, hoccupied⟩ := ih k hr
      rw [extend_of_successor w hs]
      rw [hsite] at hend hoccupied
      refine ⟨site', k', hsame, hend, fun x => (hoccupied x).trans ?_⟩
      rw [exists_prefix_cons_iff, ← or_assoc, or_iff_left_of_imp hfirst]
    | none =>
      obtain ⟨site', k', hsame, hend, hoccupied⟩ := ih (k.grow ha hp hs) isLive_grow_size
      rw [extend_of_grow w hs]
      rw [growSite_size] at hend hoccupied
      refine ⟨site', k', fun q hq => ?_, hend, fun x => (hoccupied x).trans ?_⟩
      · rw [hsame q (isLive_grow_iff.2 (Or.inr hq)), growSite_of_isLive hq]
      · rw [occupied_grow_iff, exists_prefix_cons_iff, ← or_assoc (b := site p = x),
          or_iff_left_of_imp hfirst, or_assoc]
        refine or_congr_right (or_iff_right_of_imp fun h => ?_)
        exact ⟨[], List.nil_prefix, h⟩

/-- The automaton `b` has grown from the base by exactly the lists of tokens in `words`. -/
structure HasSites (a b : Automaton) (site : NodeId → Site) (words : Set (List String)) : Prop
    extends IsGraft a b site where
  /-- The sites of the base and those of the prefixes are taken. -/
  occupied_iff : ∀ x, b.Occupied site x ↔
    (∃ q, a.isLive q = true ∧ (q, []) = x) ∨ ∃ w ∈ words, ∃ v, v <+: w ∧ a.siteOf v = x
  /-- The final nodes are those of the base and those to which the lists lead. -/
  final_iff : ∀ x, (∃ q ∈ b.finals, site q = x) ↔
    (∃ q ∈ a.finals, (q, []) = x) ∨ ∃ w ∈ words, a.siteOf w = x

theorem hasSites_self (ha : a.WellFormed) : HasSites a a (fun q => (q, [])) ∅ where
  toIsGraft := isGraft_self ha
  occupied_iff x := by simp [Occupied]
  final_iff x := by simp

namespace HasSites

variable {words : Set (List String)} {sentences : List String}

theorem ingestTokens (k : HasSites a b site words) (ha : a.WellFormed) (w : List String) :
    ∃ site', HasSites a (b.ingestTokens w) site' (insert w words) := by
  obtain ⟨site', k', hsame, hend, hoccupied⟩ := k.toIsGraft.extend ha k.start_live w
  have hstart : site b.start = (a.start, []) := k.start_eq ▸ (k.base a.start ha.start_live).2
  rw [hstart] at hend hoccupied
  refine ⟨site',
    { toIsGraft := k'.markFinal _, occupied_iff := fun x => ?_, final_iff := fun x => ?_ }⟩
  · have hmark : (b.ingestTokens w).Occupied site' x ↔
        (b.extend b.start w).2.Occupied site' x := by
      simp only [Occupied, Automaton.ingestTokens, isLive_markFinal]
    rw [hmark, hoccupied, k.occupied_iff, or_assoc, Set.exists_mem_insert]
    exact or_congr_right or_comm
  · have hold : (∃ q ∈ b.finals, site' q = x) ↔ ∃ q ∈ b.finals, site q = x :=
      exists_congr fun q => and_congr_right fun hq => by
        rw [hsame q (k.isLive_of_mem_finals hq)]
    simp only [k.mem_finals_ingestTokens_iff, or_and_right, exists_or, exists_eq_left, hend, hold,
      k.final_iff, Set.exists_mem_insert]
    exact or_left_comm

theorem ingestAll (k : HasSites a b site words) (ha : a.WellFormed) (sentences : List String) :
    ∃ site', HasSites a (b.ingestAll sentences) site'
      (words ∪ {w | ∃ s ∈ sentences, Text.tokens s = w}) := by
  induction sentences generalizing b site words with
  | nil => exact ⟨site, by simpa [Automaton.ingestAll] using k⟩
  | cons s sentences ih =>
    obtain ⟨site₁, k₁⟩ := k.ingestTokens ha (Text.tokens s)
    obtain ⟨site₂, k₂⟩ := ih k₁
    have hwords : words ∪ {w | ∃ s' ∈ s :: sentences, Text.tokens s' = w} =
        insert (Text.tokens s) words ∪ {w | ∃ s' ∈ sentences, Text.tokens s' = w} := by
      ext w
      simp only [Set.mem_union, Set.mem_insert_iff, Set.mem_ofPred_eq, List.exists_mem_cons_iff,
        or_assoc, eq_comm (a := w)]
      exact or_left_comm
    exact ⟨site₂, hwords ▸ k₂⟩

end HasSites

/-! ## Correspondence -/

/-- The automata are the same up to their handles: nodes correspond along `f`, edges with their
labels and endpoints along `g`. -/
structure Corresponds (f : NodeId → NodeId) (g : EdgeId → EdgeId) (b c : Automaton) : Prop where
  nodes : Set.BijOn f {q | b.isLive q = true} {q | c.isLive q = true}
  edges : Set.BijOn g {e | b.edges.isLive e = true} {e | c.edges.isLive e = true}
  edge?_eq : ∀ e x, b.edge? e = some x → c.edge? (g e) = some (x.map f)
  start_eq : c.start = f b.start
  mem_finals_iff : ∀ q, b.isLive q = true → (q ∈ b.finals ↔ f q ∈ c.finals)

/-- No two edges agree in source, label and target, so that edges correspond when arcs do. -/
theorem exists_edge_bijection {f : NodeId → NodeId} (hb : b.WellFormed) (hc : c.WellFormed)
    (hnodes : Set.BijOn f {q | b.isLive q = true} {q | c.isLive q = true})
    (harcs : ∀ p l q, b.isLive p = true → b.isLive q = true →
      (b.Arc p l q ↔ c.Arc (f p) l (f q))) :
    ∃ g, Set.BijOn g {e | b.edges.isLive e = true} {e | c.edges.isLive e = true} ∧
      ∀ e x, b.edge? e = some x → c.edge? (g e) = some (x.map f) := by
  have hexists (e) : ∃ i, ∀ x, b.edge? e = some x → c.edge? i = some (x.map f) := by
    cases he : b.edge? e with
    | none => exact ⟨0, nofun⟩
    | some x =>
      obtain ⟨i, hi⟩ := (harcs _ _ _ (hb.source_live e x he) (hb.target_live e x he)).1
        (arc_of_edge? he)
      exact ⟨i, fun y hy => Option.some.inj hy ▸ hi⟩
  choose g hg using hexists
  refine ⟨g, ⟨?_, ?_, ?_⟩, hg⟩
  · intro e he
    obtain ⟨x, hx⟩ := Arena.isLive_iff.1 he
    exact Arena.isLive_iff.2 ⟨_, hg e x hx⟩
  · intro e he i hi heq
    obtain ⟨x, hx⟩ := Arena.isLive_iff.1 he
    obtain ⟨y, hy⟩ := Arena.isLive_iff.1 hi
    have hmap : x.map f = y.map f := by
      rw [← Option.some.injEq, ← hg e x hx, ← hg i y hy, heq]
    obtain ⟨hs, hl, ht⟩ := Edge.mk.inj hmap
    have hxy : x = y := by
      have hs' := hnodes.injOn (hb.source_live e x hx) (hb.source_live i y hy) hs
      have ht' := hnodes.injOn (hb.target_live e x hx) (hb.target_live i y hy) ht
      cases x
      cases y
      simp_all
    exact hb.edge_unique e i x hx (hxy ▸ hy)
  · intro i hi
    obtain ⟨y, hy⟩ := Arena.isLive_iff.1 hi
    obtain ⟨p, hp, hps⟩ := hnodes.surjOn (hc.source_live i y hy)
    obtain ⟨q, hq, hqt⟩ := hnodes.surjOn (hc.target_live i y hy)
    obtain ⟨e, he⟩ := (harcs p y.label q hp hq).2 ⟨i, by rw [hps, hqt]; exact hy⟩
    refine ⟨e, Arena.isLive_iff.2 ⟨_, he⟩, hc.edge_unique (g e) i y ?_ hy⟩
    rw [hg e _ he, Edge.map, hps, hqt]

/-- Automata that have grown from one base by the same lists of tokens correspond, and the nodes of
the base correspond to themselves. -/
theorem HasSites.exists_correspondence {site' : NodeId → Site} {words : Set (List String)}
    (hb : HasSites a b site words) (hc : HasSites a c site' words) (ha : a.WellFormed) :
    ∃ f g, Corresponds f g b c ∧ ∀ q, a.isLive q = true → f q = q := by
  have hexists (q) : ∃ r, b.isLive q = true → c.isLive r = true ∧ site' r = site q := by
    cases hq : b.isLive q with
    | false => exact ⟨q, nofun⟩
    | true =>
      obtain ⟨r, hr⟩ := (hc.occupied_iff _).2 ((hb.occupied_iff _).1 ⟨q, hq, rfl⟩)
      exact ⟨r, fun _ => hr⟩
  choose f hf using hexists
  have hsite {q} (hq : b.isLive q = true) : site' (f q) = site q := (hf q hq).2
  have heq {q r} (hq : b.isLive q = true) (hr : c.isLive r = true) (h : site' r = site q) :
      f q = r := hc.injective _ _ (hf q hq).1 hr ((hsite hq).trans h.symm)
  have hnodes : Set.BijOn f {q | b.isLive q = true} {q | c.isLive q = true} := by
    refine ⟨fun q hq => (hf q hq).1, fun p hp q hq h => ?_, fun r hr => ?_⟩
    · exact hb.injective p q hp hq (by rw [← hsite hp, ← hsite hq, h])
    · obtain ⟨q, hq, hqr⟩ := (hb.occupied_iff _).2 ((hc.occupied_iff _).1 ⟨r, hr, rfl⟩)
      exact ⟨q, hq, heq hq hr hqr.symm⟩
  have harcs (p l q) (hp : b.isLive p = true) (hq : b.isLive q = true) :
      b.Arc p l q ↔ c.Arc (f p) l (f q) := by
    rw [hb.arc_iff p l q hp hq, hc.arc_iff _ l _ (hf p hp).1 (hf q hq).1, hsite hp, hsite hq]
  have hfixed (q) (hq : a.isLive q = true) : f q = q := by
    obtain ⟨hqb, hb⟩ := hb.base q hq
    obtain ⟨hqc, hc⟩ := hc.base q hq
    exact heq hqb hqc (hc.trans hb.symm)
  obtain ⟨g, hedges, hg⟩ := exists_edge_bijection hb.toWellFormed hc.toWellFormed hnodes harcs
  refine ⟨f, g, ⟨hnodes, hedges, hg, ?_, fun q hq => ⟨fun hfin => ?_, fun hfin => ?_⟩⟩, hfixed⟩
  · rw [hb.start_eq, hc.start_eq, hfixed a.start ha.start_live]
  · obtain ⟨r, hr, hrq⟩ := (hc.final_iff _).2 ((hb.final_iff _).1 ⟨q, hfin, rfl⟩)
    rwa [heq hq (hc.isLive_of_mem_finals hr) hrq]
  · obtain ⟨r, hr, hrq⟩ := (hb.final_iff _).2 ((hc.final_iff _).1 ⟨f q, hfin, rfl⟩)
    rwa [← hb.injective r q (hb.isLive_of_mem_finals hr) hq (hrq.trans (hsite hq))]

/-- Two lists of sentences with the same lists of tokens, in whatever order and however often,
extend the automaton of any run to automata that correspond, each node of the run to itself. -/
theorem ingestAll_order_irrelevant (ha : a.Reachable) {sentences sentences' : List String}
    (hsame : ∀ w, w ∈ sentences.map Text.tokens ↔ w ∈ sentences'.map Text.tokens) :
    ∃ f g, Corresponds f g (a.ingestAll sentences) (a.ingestAll sentences') ∧
      ∀ q, a.isLive q = true → f q = q := by
  have hwf := ha.coherent.toWellFormed
  obtain ⟨site, k⟩ := (hasSites_self hwf).ingestAll hwf sentences
  obtain ⟨site', k'⟩ := (hasSites_self hwf).ingestAll hwf sentences'
  have hwords : {w | ∃ s ∈ sentences', Text.tokens s = w} =
      {w | ∃ s ∈ sentences, Text.tokens s = w} := by
    ext w
    simpa using (hsame w).symm
  rw [hwords] at k'
  exact k.exists_correspondence k' hwf

/-- Two of the sentences leave `regrown` in one node, the longer after a round of its cycle, and go
on to one new node.  The shorter adds it in the first order, and the longer in the second. -/
theorem regrown_order_irrelevant :
    (regrown.ingestAll ["a e x", "a b a e x y", "c z"]).edge? 9 = some ⟨10, "x", 12⟩ ∧
      (regrown.ingestAll ["c z", "a b a e x y", "a e x", "c z"]).edge? 9 = some ⟨5, "z", 12⟩ ∧
      ∃ f g, Corresponds f g (regrown.ingestAll ["a e x", "a b a e x y", "c z"])
          (regrown.ingestAll ["c z", "a b a e x y", "a e x", "c z"]) ∧
        ∀ q, regrown.isLive q = true → f q = q := by
  refine ⟨by decide +kernel, by decide +kernel, ?_⟩
  refine ingestAll_order_irrelevant ⟨_, rfl⟩ fun w => ?_
  simp only [List.map_cons, List.map_nil, List.mem_cons, List.not_mem_nil, or_false]
  tauto

end StateMerging.Automaton
