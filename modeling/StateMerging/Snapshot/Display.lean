import StateMerging.Snapshot
import StateMerging.Text.Table

/-!
# Showing a snapshot

A snapshot is shown as a table with a row for each pair of nodes that edges join, and a line that
counts nodes and edges and names the start node and the final nodes.  The start node is bold and the
final nodes are green.
-/

namespace StateMerging.Snapshot

/-- The name of a node in its style; a node that the snapshot does not list has no name. -/
def showNode (s : Snapshot) (q : NodeId) : String :=
  let name := (s.name? q).getD "?"
  let name := if q ∈ s.accepting then Text.Style.green.apply name else name
  if q = s.start then Text.Style.bold.apply name else name

/-- The rows of the table, its header first, if every node is written as a function says. -/
def rowsWith (s : Snapshot) (text : NodeId → String) : List (List String) :=
  ["source", "labels", "target"] ::
    s.combined.map fun c => [text c.source, c.label, text c.target]

/-- The text that shows a snapshot if every node is written as a function says. -/
def displayWith (s : Snapshot) (text : NodeId → String) : String :=
  Text.table (s.rowsWith text) ++ "\n" ++
  (toString s.nodes.size ++ " nodes, " ++ toString s.edges.length ++ " edges, start " ++
    text s.start ++ ", accepting \x7b" ++ ", ".intercalate (s.accepting.toList.map text) ++ "\x7d")

/-- The text that shows a snapshot, without a line feed at its end. -/
def display (s : Snapshot) : String := s.displayWith s.showNode

end StateMerging.Snapshot
