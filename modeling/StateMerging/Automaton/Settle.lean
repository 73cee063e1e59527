import StateMerging.Automaton.Step

/-!
# Generalization to a fixpoint

`Automaton.settle` repeats the step until no further step can change the automaton, or the given
number of steps has been made.  As long as nothing is merged the next frontier depends on the
frontier alone, so it is enough to stop when the frontier is empty or was seen before since the
last merge.
-/

namespace StateMerging.Automaton

/-- Makes up to `remaining` further steps, when `taken` steps have been made and `seen` are the
frontiers since the last merge; the answer is the number of all steps. -/
def settleFrom (a : Automaton) (taken : Nat) (seen : List (SortedSet NodeId)) :
    (remaining : Nat) → Outcome Nat
  | 0 => ⟨.ok taken, a⟩
  | remaining + 1 =>
    match a.step with
    | ⟨.error v, b⟩ => ⟨.error v, b⟩
    | ⟨.ok report, b⟩ =>
      if report.changed then b.settleFrom (taken + 1) [] remaining
      else if b.frontier.isEmpty || b.frontier ∈ seen then ⟨.ok (taken + 1), b⟩
      else b.settleFrom (taken + 1) (b.frontier :: seen) remaining

/-- Repeats the step until nothing can change, at most `bound` times; the answer is the number of
steps made. -/
def settle (a : Automaton) (bound : Nat) : Outcome Nat := a.settleFrom 0 [] bound

end StateMerging.Automaton
