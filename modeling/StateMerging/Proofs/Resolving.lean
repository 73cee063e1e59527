import StateMerging.Proofs.Compression
import StateMerging.Proofs.Rewiring
import StateMerging.Proofs.Steps

/-!
# Steps that shorten chains

`Automaton.step` looks up the end of a chain and leaves the record of replacements as it is.  Here a
step resolves instead: each frontier node when it is visited, the members of each group before they
are merged, and the nodes of the next frontier, every time in the record that the resolutions before
have shortened.

* `Tracks b t t'`: the tally `t'` stands for the same nodes as `t`, and only handles that `b` has
  issued are replaced.  Merging one more group keeps this (`Tracks.add`).
* `mergeGroups_cases`: merging the same groups with both tallies fails alike, or leads to the same
  automaton.
* `step_eq_stepInPlace`: for every automaton the two steps are the same.
-/

namespace StateMerging

/-! ## Replacing a group in two records -/

namespace Redirections

variable {α : Type} [DecidableEq α] {r s : Redirections α} {x y : α} {xs : List α}

theorem Alike.redirectAll (k : Alike r s) (hn : xs.Nodup) (hx : ∀ x ∈ xs, s.next? x = none)
    (hy : s.next? y = none) (hm : y ∉ xs) : Alike (r.redirectAll xs y) (s.redirectAll xs y) := by
  have hx' : ∀ x ∈ xs, r.next? x = none := fun x hmem => k.next?_eq_none (hx x hmem)
  have hy' : r.next? y = none := k.next?_eq_none hy
  refine ⟨k.left.redirectAll hn hx' hy' hm, k.right.redirectAll hn hx hy hm, fun z => ?_⟩
  rw [k.left.root_redirectAll hn hx' hy' hm, k.right.root_redirectAll hn hx hy hm, k.root_eq]

end Redirections

namespace Automaton

open Redirections (Alike)

variable {a b c : Automaton} {t t' : Tally} {r s : Redirections NodeId} {g : SortedSet NodeId}
  {gs : List (SortedSet NodeId)} {m p q : NodeId}

/-! ## The step -/

/-- Looks at frontier nodes up to the first one with a label that leads to several targets; `filed`
lists the adjacencies of the nodes before, each with its node. -/
def candidatesInPlace (a : Automaton) (r : Redirections NodeId)
    (filed : List (Adjacency × NodeId)) : List NodeId → (Bool × List (SortedSet NodeId)) × Redirections NodeId
  | [] => ((false, (groups filed).map (·.2)), r)
  | q :: qs =>
    let (q, r) := r.resolve q
    if a.collisions q = [] then
      let adjacencies := ((a.node? q).map fun n => (n.adjacencies a.edges).map (·, q)).getD []
      a.candidatesInPlace r (filed ++ adjacencies) qs
    else ((true, a.collisions q), r)

/-- Merges several groups, one after the other; the members of each are resolved before. -/
def mergeGroupsInPlace (a : Automaton) (t : Tally) : List (SortedSet NodeId) → Outcome Tally
  | [] => ⟨.ok t, a⟩
  | g :: gs =>
    let (group, r) := t.redirections.resolveAll g.toList
    let t := { t with redirections := r }
    if group.size < 2 then a.mergeGroupsInPlace t gs
    else
      match a.mergeInPlace group with
      | ⟨.error v, b⟩ => ⟨.error v, b⟩
      | ⟨.ok none, b⟩ => b.mergeGroupsInPlace t gs
      | ⟨.ok (some m), b⟩ => b.mergeGroupsInPlace (Tally.add t b group m) gs

/-- Visits the nodes of a frontier and adds to `next` the predecessors of each, and the node itself
if it is nondeterministic. -/
def visitInPlace (a : Automaton) (r : Redirections NodeId) (next : SortedSet NodeId) :
    List NodeId → SortedSet NodeId × Redirections NodeId
  | [] => (next, r)
  | q :: qs =>
    let (q, r) := r.resolve q
    let next := next.union (a.predecessors q)
    a.visitInPlace r (if a.isNondeterministic q then next.insert q else next) qs

/-- The nodes that follow a frontier, which are resolved themselves in the end. -/
def nextFrontierInPlace (a : Automaton) (t : Tally) (frontier : SortedSet NodeId) :
    SortedSet NodeId :=
  let (next, r) := a.visitInPlace t.redirections t.unsettled frontier.toList
  (r.resolveAll next.toList).1.filter a.isLive

/-- Merges nodes of the frontier and moves the frontier, with one record for the whole step. -/
def mergeFrontierInPlace (a : Automaton) : Outcome StepReport :=
  match a.frontier.toList.find? fun q => !a.isLive q with
  | some q => ⟨.error (.retiredFrontierNode q), a⟩
  | none =>
    let ((determinized, gs), r) := a.candidatesInPlace ∅ [] a.frontier.toList
    match { a with frontier := ∅ }.mergeGroupsInPlace { redirections := r } gs with
    | ⟨.error v, b⟩ => ⟨.error v, b⟩
    | ⟨.ok t, b⟩ =>
      ⟨.ok ⟨b.phase, t.merges, determinized⟩,
        { b with frontier := b.nextFrontierInPlace t a.frontier }⟩

/-- One step of generalization that resolves in place. -/
def stepInPlace (a : Automaton) : Outcome StepReport :=
  checked <|
    match a.phase with
    | .notStarted => a.unifyFinals
    | .finalsUnified => a.mergeFrontierInPlace

/-! ## Choosing the groups -/

/-- Before the first merge there is nothing to resolve. -/
theorem candidatesInPlace_eq (a : Automaton) (filed : List (Adjacency × NodeId))
    (l : List NodeId) :
    a.candidatesInPlace ∅ filed l =
      (match l.find? fun q => !(a.collisions q).isEmpty with
        | some q => (true, a.collisions q)
        | none =>
          (false, (groups (filed ++ l.flatMap fun q =>
            ((a.node? q).map fun n => (n.adjacencies a.edges).map (·, q)).getD [])).map (·.2)),
        ∅) := by
  induction l generalizing filed with
  | nil => simp [candidatesInPlace]
  | cons q l ih =>
    have hresolve : (∅ : Redirections NodeId).resolve q = (q, ∅) := rfl
    rw [candidatesInPlace, hresolve]
    cases hq : a.collisions q with
    | nil => simp [ih, hq]
    | cons g gs => simp [hq]

/-! ## Merging them -/

/-- A merge of several nodes fails, or replaces live nodes by a fresh one. -/
theorem merge_cases (htwo : ¬ g.size < 2) :
    (∃ v c, b.merge g = ⟨.error v, c⟩) ∨
      ∃ c, b.merge g = ⟨.ok (some b.nodes.size), c⟩ ∧ (∀ q ∈ g, b.isLive q = true) ∧
        c.nodes.size = b.nodes.size + 1 := by
  rw [merge]
  cases hfind : g.toList.find? fun q => !b.isLive q with
  | some q => exact Or.inl ⟨_, _, rfl⟩
  | none =>
    have hlive : ∀ q ∈ g, b.isLive q = true := fun q hq => by
      simpa using List.find?_eq_none.1 hfind q hq
    simp only [if_neg htwo, fuse]
    cases b.missingFault? g with
    | some v => exact Or.inl ⟨_, _, rfl⟩
    | none =>
      cases ((b.rewire g).retire g b.nodes.size).mergeFault? g b.nodes.size with
      | some v => exact Or.inl ⟨_, _, rfl⟩
      | none => exact Or.inr ⟨_, rfl, hlive, by simp [retire, rewire]⟩

/-- The second tally stands for the same nodes as the first one, and only handles that the automaton
has issued are replaced. -/
structure Tracks (b : Automaton) (t t' : Tally) : Prop where
  alike : Alike t'.redirections t.redirections
  merges_eq : t'.merges = t.merges
  unsettled_eq : t'.unsettled = t.unsettled
  issued : ∀ q p, t.redirections.next? q = some p → q < b.nodes.size

namespace Tracks

theorem resolveAll (k : Tracks b t t') (xs : List NodeId) :
    Tracks b t { t' with redirections := (t'.redirections.resolveAll xs).2 } :=
  { k with alike := k.alike.resolveAll xs }

theorem fst_resolveAll (k : Tracks b t t') (g : SortedSet NodeId) :
    (t'.redirections.resolveAll g.toList).1 = g.image t.redirections.root :=
  k.alike.fst_resolveAll g.toList

/-- The members of the merged group stand for themselves, and the fresh node does as well. -/
theorem add (k : Tracks b t t') (hg : ∀ q ∈ g, b.isLive q = true)
    (hnext : ∀ q ∈ g, t.redirections.next? q = none) (hc : c.nodes.size = b.nodes.size + 1) :
    Tracks c (Tally.add t c g b.nodes.size) (Tally.add t' c g b.nodes.size) where
  alike := by
    have hfresh : t.redirections.next? b.nodes.size = none := by
      cases h : t.redirections.next? b.nodes.size with
      | none => rfl
      | some p => exact absurd (k.issued _ p h) (Nat.lt_irrefl _)
    exact k.alike.redirectAll g.nodup hnext hfresh (size_not_mem hg)
  merges_eq := congrArg (· + 1) k.merges_eq
  unsettled_eq := by
    rw [Tally.add, Tally.add, k.unsettled_eq]
  issued q p hq := by
    have hm : b.nodes.size ∉ g.toList := size_not_mem hg
    rw [Tally.add, Redirections.next?_redirectAll hm] at hq
    rw [hc]
    split at hq
    · rename_i hmem
      exact Nat.lt_succ_of_lt (lt_size_of_isLive (hg q hmem))
    · exact Nat.lt_succ_of_lt (k.issued q p hq)

end Tracks

theorem mergeGroups_cases (k : Tracks b t t') (gs : List (SortedSet NodeId)) :
    (∃ v c, b.mergeGroups t gs = ⟨.error v, c⟩ ∧ b.mergeGroupsInPlace t' gs = ⟨.error v, c⟩) ∨
      ∃ u u' c, b.mergeGroups t gs = ⟨.ok u, c⟩ ∧ b.mergeGroupsInPlace t' gs = ⟨.ok u', c⟩ ∧
        Tracks c u u' := by
  induction gs generalizing b t t' with
  | nil => exact Or.inr ⟨t, t', b, rfl, rfl, k⟩
  | cons g gs ih =>
    have hresolved := k.resolveAll g.toList
    rw [mergeGroups, mergeGroupsInPlace]
    simp only [k.fst_resolveAll, ← merge_eq_mergeInPlace]
    by_cases hlt : (g.image t.redirections.root).size < 2
    · rw [if_pos hlt, if_pos hlt]
      exact ih hresolved
    · rw [if_neg hlt, if_neg hlt]
      rcases merge_cases (b := b) hlt with ⟨v, c, hmerge⟩ | ⟨c, hmerge, hlive, hsize⟩
      · rw [hmerge]
        exact Or.inl ⟨v, c, rfl, rfl⟩
      · rw [hmerge]
        refine ih (hresolved.add hlive (fun q hq => ?_) hsize)
        obtain ⟨p, -, rfl⟩ := SortedSet.mem_image.1 hq
        exact k.alike.right.next?_root p

/-! ## Moving the frontier -/

theorem Alike.visitInPlace (k : Alike r s) (a : Automaton) (next : SortedSet NodeId)
    (l : List NodeId) : Alike (a.visitInPlace r next l).2 s := by
  induction l generalizing r next with
  | nil => exact k
  | cons q l ih => exact ih (k.resolve q) _

/-- What one visit adds. -/
theorem mem_ite_insert {next : SortedSet NodeId} :
    (p ∈ if a.isNondeterministic q then (next.union (a.predecessors q)).insert q
      else next.union (a.predecessors q)) ↔
        p ∈ next ∨ p ∈ a.predecessors q ∨ (q = p ∧ a.isNondeterministic p = true) := by
  split
  · rename_i hq
    rw [SortedSet.mem_insert, SortedSet.mem_union]
    constructor
    · rintro (rfl | hp | hp)
      · exact Or.inr (Or.inr ⟨rfl, hq⟩)
      · exact Or.inl hp
      · exact Or.inr (Or.inl hp)
    · rintro (hp | hp | ⟨rfl, -⟩)
      · exact Or.inr (Or.inl hp)
      · exact Or.inr (Or.inr hp)
      · exact Or.inl rfl
  · rename_i hq
    rw [SortedSet.mem_union]
    refine or_congr_right ⟨Or.inl, ?_⟩
    rintro (hp | ⟨rfl, hp⟩)
    · exact hp
    · exact absurd hp hq

theorem mem_visitInPlace (k : Alike r s) {next : SortedSet NodeId} {l : List NodeId} :
    p ∈ (a.visitInPlace r next l).1 ↔ p ∈ next ∨ ∃ q ∈ l, p ∈ a.predecessors (s.root q) ∨
      (s.root q = p ∧ a.isNondeterministic p = true) := by
  induction l generalizing r next with
  | nil => simp [visitInPlace]
  | cons q l ih =>
    have hroot : (r.resolve q).1 = s.root q := k.root_eq q
    rw [visitInPlace]
    simp only [hroot]
    rw [ih (k.resolve q), mem_ite_insert, or_assoc]
    simp only [List.mem_cons, exists_eq_or_imp]

theorem Tracks.nextFrontierInPlace_eq (k : Tracks b t t') (frontier : SortedSet NodeId) :
    b.nextFrontierInPlace t' frontier = b.nextFrontier t frontier := by
  refine SortedSet.ext_mem fun q => ?_
  have hvisited := Alike.visitInPlace k.alike b t'.unsettled frontier.toList
  rw [mem_nextFrontier, nextFrontierInPlace, SortedSet.mem_filter, hvisited.fst_resolveAll,
    SortedSet.mem_ofList, List.mem_map, and_comm]
  refine and_congr_right fun _ => exists_congr fun p => ?_
  rw [and_comm, SortedSet.mem_toList, mem_visitInPlace k.alike, k.unsettled_eq]
  refine and_congr_right fun _ => ?_
  constructor
  · rintro (hp | ⟨r, hr, hp | ⟨hroot, hn⟩⟩)
    · exact Or.inr (Or.inr hp)
    · exact Or.inl ⟨r, hr, hp⟩
    · exact Or.inr (Or.inl ⟨⟨r, hr, hroot⟩, hn⟩)
  · rintro (⟨r, hr, hp⟩ | ⟨⟨r, hr, hroot⟩, hn⟩ | hp)
    · exact Or.inr ⟨r, hr, Or.inl hp⟩
    · exact Or.inr ⟨r, hr, Or.inr ⟨hroot, hn⟩⟩
    · exact Or.inl hp

/-! ## Steps -/

theorem Tracks.start (a : Automaton) : Tracks a {} {} where
  alike := .refl Redirections.acyclic_empty
  merges_eq := rfl
  unsettled_eq := rfl
  issued q p h := by simp at h

theorem mergeFrontier_eq_mergeFrontierInPlace (a : Automaton) :
    a.mergeFrontier = a.mergeFrontierInPlace := by
  rw [mergeFrontier, mergeFrontierInPlace]
  cases a.frontier.toList.find? fun q => !a.isLive q with
  | some q => rfl
  | none =>
    have hcandidates : a.candidatesInPlace ∅ [] a.frontier.toList = (a.candidates, ∅) := by
      rw [candidatesInPlace_eq, List.nil_append]
      rfl
    simp only [hcandidates]
    have k := Tracks.start { a with frontier := ∅ }
    rcases mergeGroups_cases k a.candidates.2 with
      ⟨v, c, hrun, hrun'⟩ | ⟨t, t', c, hrun, hrun', k⟩
    · rw [hrun, hrun']
    · rw [hrun, hrun']
      simp only [k.nextFrontierInPlace_eq, k.merges_eq]

/-- Resolving makes no difference, whatever the automaton and however the step ends. -/
theorem step_eq_stepInPlace (a : Automaton) : a.step = a.stepInPlace := by
  rw [step, stepInPlace]
  cases a.phase with
  | notStarted => rfl
  | finalsUnified => exact congrArg checked a.mergeFrontier_eq_mergeFrontierInPlace

end Automaton

end StateMerging
