import StateMerging.Automaton.Basic

/-!
# Ingestion

A sentence is ingested by walking its tokens from the start node.  A token that can be followed is
followed; for one that cannot, a fresh node and an edge to it are added.  The node reached in the
end becomes accepting and final.

From the empty automaton this builds the prefix tree of the sentences.  `extend_of_successor` and
`extend_of_no_successor` are the two cases of one token.
-/

namespace StateMerging.Automaton

/-- Walks a list of tokens from `q`, adding what is missing; the node reached, and the automaton. -/
def extend (a : Automaton) (q : NodeId) : List String → NodeId × Automaton
  | [] => (q, a)
  | t :: ts =>
    match a.successor q t with
    | some p => a.extend p ts
    | none => (a.addFreshNode.addEdge q t a.nodes.size).extend a.nodes.size ts

/-- Extends the automaton by a list of tokens. -/
def ingestTokens (a : Automaton) (ts : List String) : Automaton :=
  let (q, b) := a.extend a.start ts
  b.markFinal q

/-- Extends the automaton by the tokens of a sentence. -/
def ingest (a : Automaton) (sentence : String) : Automaton := a.ingestTokens (Text.tokens sentence)

/-- Extends the automaton by several sentences, one after the other. -/
def ingestAll (a : Automaton) (sentences : List String) : Automaton := sentences.foldl ingest a

theorem extend_of_successor {a : Automaton} {q p : NodeId} {t : String} (ts : List String)
    (h : a.successor q t = some p) : a.extend q (t :: ts) = a.extend p ts := by
  simp [extend, h]

theorem extend_of_no_successor {a : Automaton} {q : NodeId} {t : String} (ts : List String)
    (h : a.successor q t = none) :
    a.extend q (t :: ts) = (a.addFreshNode.addEdge q t a.nodes.size).extend a.nodes.size ts := by
  simp [extend, h]

end StateMerging.Automaton
