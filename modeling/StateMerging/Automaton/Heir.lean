import StateMerging.Automaton.Run

/-!
# Heirs

A merge replaces nodes by a fresh one.  The *heir* of a node is the node that stands for it
afterwards: the node itself as long as it is live, and otherwise the end of the replacements that
the merges have recorded.

`Automaton.heir` follows a node over one step, `heirAfter` over several steps, `heirOf` over an
action and `heirAll` over a run.  Ingestion replaces no node.
-/

namespace StateMerging.Automaton

/-- The node that stands for `q` after one step, if the step does not break off. -/
def heir (a : Automaton) (q : NodeId) : NodeId :=
  match a.phase with
  | .notStarted =>
    match (a.merge a.finals).result with
    | .ok (some m) => collapse a.finals m q
    | _ => q
  | .finalsUnified =>
    match ({ a with frontier := ∅ }.mergeGroups {} a.candidates.2).result with
    | .ok t => t.redirections.root q
    | .error _ => q

/-- The node that stands for `q` after several steps. -/
def heirAfter (a : Automaton) : Nat → NodeId → NodeId
  | 0, q => q
  | n + 1, q => a.step.after.heirAfter n (a.heir q)

/-- The node that stands for `q` after an action. -/
def heirOf (a : Automaton) (q : NodeId) : Action → NodeId
  | .ingest _ => q
  | .step => a.heir q
  | .settle bound =>
    match (a.settle bound).result with
    | .ok steps => a.heirAfter steps q
    | .error _ => q

/-- The node that stands for `q` after several actions. -/
def heirAll (a : Automaton) : List Action → NodeId → NodeId
  | [], q => q
  | x :: xs, q => (a.perform x).heirAll xs (a.heirOf q x)

end StateMerging.Automaton
