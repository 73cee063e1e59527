import StateMerging.Automaton.Ingest
import StateMerging.Automaton.Settle

/-!
# Runs

A run is a list of actions on an automaton: a sentence is ingested, a step of generalization is
made, or steps are made to the fixpoint.  `Automaton.Reachable` holds of the automata that a run
leads to from the empty one.
-/

namespace StateMerging

/-- What can be done with an automaton. -/
inductive Action
  | ingest (sentence : String)
  | step
  | settle (bound : Nat)
  deriving DecidableEq

namespace Automaton

/-- The automaton after an action. -/
def perform (a : Automaton) : Action → Automaton
  | .ingest s => a.ingest s
  | .step => a.step.after
  | .settle bound => (a.settle bound).after

/-- The automaton after several actions, one after the other. -/
def performAll (a : Automaton) (actions : List Action) : Automaton := actions.foldl perform a

/-- Some run leads from the empty automaton to this one. -/
def Reachable (a : Automaton) : Prop := ∃ actions, empty.performAll actions = a

@[simp] theorem performAll_cons (a : Automaton) (x : Action) (xs : List Action) :
    a.performAll (x :: xs) = (a.perform x).performAll xs := rfl

@[simp] theorem performAll_append (a : Automaton) (xs ys : List Action) :
    a.performAll (xs ++ ys) = (a.performAll xs).performAll ys := List.foldl_append

end Automaton

end StateMerging
