import StateMerging.Automaton.Basic

/-!
# Violations

A `Violation` is a defect in the structure of an automaton, with the handles that show it.  An
operation that finds one breaks off: its `Outcome` holds the violation in place of an answer, next
to the automaton as the operation left it.
-/

namespace StateMerging

/-- A defect in the structure of an automaton. -/
inductive Violation
  | retiredStart (q : NodeId)
  | retiredFinal (q : NodeId)
  | retiredMergeInput (q : NodeId)
  | retiredFrontierNode (q : NodeId)
  | danglingEdge (e : EdgeId) (q : NodeId)
  /-- A view of a node holds an edge that is not live. -/
  | missingEdge (q : NodeId) (e : EdgeId)
  /-- A view of a node holds an edge that does not belong there or holds it twice, or lacks one. -/
  | misfiledEdge (q : NodeId) (e : EdgeId)
  /-- An edge agrees in source, label and target with one of a lower handle. -/
  | duplicateEdge (e : EdgeId) (x : Edge)
  | acceptingNotFinal (q : NodeId)
  | finalNotAccepting (q : NodeId)
  deriving DecidableEq

/-- The text that explains a violation. -/
def Violation.message : Violation → String
  | retiredStart q => "start node " ++ q.text ++ " has been merged away"
  | retiredFinal q => "final node " ++ q.text ++ " has been merged away"
  | retiredMergeInput q => "cannot merge " ++ q.text ++ ", it has already been merged away"
  | retiredFrontierNode q => "frontier refers to " ++ q.text ++ ", which has been merged away"
  | danglingEdge e q =>
    "edge " ++ e.text ++ " refers to " ++ q.text ++ ", which has been merged away"
  | missingEdge q e => q.text ++ " refers to edge " ++ e.text ++ ", which has been discarded"
  | misfiledEdge q e => "edge " ++ e.text ++ " is filed incorrectly in the views of " ++ q.text
  | duplicateEdge e x =>
    "edge " ++ e.text ++ " duplicates " ++ x.source.text ++ " " ++ x.adjacency.text
  | acceptingNotFinal q => q.text ++ " is accepting but not final"
  | finalNotAccepting q => q.text ++ " is final but not accepting"

/-- The answer of an operation or the violation that broke it off, and the automaton it left. -/
structure Outcome (α : Type) where
  result : Except Violation α
  after : Automaton

end StateMerging
