import StateMerging.Automaton.Merge
import StateMerging.Redirections

/-!
# Steps of generalization

The first step unifies the final nodes.  Every later step looks at the frontier in ascending order
of handles.  If a frontier node has a label that leads to several targets, the first such node is
repaired: for each of its labels the targets are merged.  Otherwise the frontier nodes that share
an adjacency are merged, in ascending order of adjacencies.  Then the frontier moves to the
predecessors of its nodes, and keeps the nodes that are still nondeterministic.

* `Automaton.candidates` chooses the groups that a step merges.
* `Automaton.mergeGroups` merges them one after the other; a member that was replaced meanwhile
  counts as its replacement.
* `Automaton.nextFrontier` moves the frontier.
* `Automaton.step` is one step; a step that leaves the contract violated answers with the violation.
-/

namespace StateMerging

/-- What one step did. -/
structure StepReport where
  phase : Phase
  /-- How many groups of at least two nodes were merged. -/
  merges : Nat
  /-- Whether the step repaired a nondeterministic node. -/
  determinized : Bool
  deriving DecidableEq

namespace StepReport

/-- Whether the step changed the structure of the automaton. -/
def changed (r : StepReport) : Bool := 0 < r.merges

/-- The text that describes a step. -/
def describe (r : StepReport) : String :=
  (if r.determinized then "determinization step, " else "merge step, ") ++
    match r.merges with
    | 0 => "nothing merged"
    | 1 => "merged 1 group"
    | n => "merged " ++ toString n ++ " groups"

end StepReport

/-- What the merges of one step have done so far. -/
structure Tally where
  redirections : Redirections NodeId := ∅
  merges : Nat := 0
  /-- The replacements that were nondeterministic when they were made. -/
  unsettled : SortedSet NodeId := ∅

namespace Automaton

/-! ## Choosing the groups -/

/-- For each label of node `q` that leads to several targets, the set of these targets. -/
def collisions (a : Automaton) (q : NodeId) : List (SortedSet NodeId) :=
  ((a.node? q).map fun n =>
    ((n.labelTargets a.edges).map (·.2)).filter fun targets => 1 < targets.size).getD []

/-- For each adjacency of a frontier node, the set of the frontier nodes that have it. -/
def shared (a : Automaton) : List (SortedSet NodeId) :=
  (groups (a.frontier.toList.flatMap fun q =>
    ((a.node? q).map fun n => (n.adjacencies a.edges).map (·, q)).getD [])).map (·.2)

/-- The groups that a step merges, and whether it repairs a nondeterministic node. -/
def candidates (a : Automaton) : Bool × List (SortedSet NodeId) :=
  match a.frontier.toList.find? fun q => !(a.collisions q).isEmpty with
  | some q => (true, a.collisions q)
  | none => (false, a.shared)

/-! ## Merging them -/

/-- Notes that a group was replaced by `m`. -/
def Tally.add (t : Tally) (a : Automaton) (group : SortedSet NodeId) (m : NodeId) : Tally where
  redirections := t.redirections.redirectAll group.toList m
  merges := t.merges + 1
  unsettled := if a.isNondeterministic m then t.unsettled.insert m else t.unsettled

/-- Merges several groups, one after the other.  Each member counts as what has replaced it, and a
group that is then a single node is passed over. -/
def mergeGroups (a : Automaton) (t : Tally) : List (SortedSet NodeId) → Outcome Tally
  | [] => ⟨.ok t, a⟩
  | g :: gs =>
    let group := g.image t.redirections.root
    if group.size < 2 then a.mergeGroups t gs
    else
      match a.merge group with
      | ⟨.error v, b⟩ => ⟨.error v, b⟩
      | ⟨.ok none, b⟩ => b.mergeGroups t gs
      | ⟨.ok (some m), b⟩ => b.mergeGroups (Tally.add t b group m) gs

/-- The nodes that follow a frontier: the predecessors of its nodes, and every frontier node or
replacement that is nondeterministic. -/
def nextFrontier (a : Automaton) (t : Tally) (frontier : SortedSet NodeId) : SortedSet NodeId :=
  let roots := frontier.image t.redirections.root
  let next := (SortedSet.ofList (roots.toList.flatMap fun q => (a.predecessors q).toList)).union
    ((roots.filter a.isNondeterministic).union t.unsettled)
  (next.image t.redirections.root).filter a.isLive

/-! ## Steps -/

/-- Unifies the final nodes; the frontier becomes the predecessors of the unified node, and the node
itself if it is nondeterministic. -/
def unifyFinals (a : Automaton) : Outcome StepReport :=
  match a.merge a.finals with
  | ⟨.error v, b⟩ => ⟨.error v, b⟩
  | ⟨.ok none, b⟩ =>
    ⟨.ok ⟨.finalsUnified, 0, false⟩, { b with frontier := ∅, phase := .finalsUnified }⟩
  | ⟨.ok (some m), b⟩ =>
    let before := b.predecessors m
    ⟨.ok ⟨.finalsUnified, if 1 < a.finals.size then 1 else 0, false⟩,
      { b with
        frontier := if b.isNondeterministic m then before.insert m else before
        phase := .finalsUnified }⟩

/-- Merges nodes of the frontier and moves the frontier. -/
def mergeFrontier (a : Automaton) : Outcome StepReport :=
  match a.frontier.toList.find? fun q => !a.isLive q with
  | some q => ⟨.error (.retiredFrontierNode q), a⟩
  | none =>
    let (determinized, gs) := a.candidates
    match { a with frontier := ∅ }.mergeGroups {} gs with
    | ⟨.error v, b⟩ => ⟨.error v, b⟩
    | ⟨.ok t, b⟩ =>
      ⟨.ok ⟨b.phase, t.merges, determinized⟩,
        { b with frontier := b.nextFrontier t a.frontier }⟩

/-- Makes a violation of the contract the answer. -/
def checked {α : Type} (o : Outcome α) : Outcome α :=
  match o.result, o.after.violation? with
  | .ok _, some v => ⟨.error v, o.after⟩
  | _, _ => o

/-- One step of generalization. -/
def step (a : Automaton) : Outcome StepReport :=
  checked <|
    match a.phase with
    | .notStarted => a.unifyFinals
    | .finalsUnified => a.mergeFrontier

end Automaton

end StateMerging
