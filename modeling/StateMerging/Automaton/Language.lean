import StateMerging.Automaton.Basic

/-!
# The language of an automaton

`Automaton.Path` holds of two nodes and a list of tokens when some edges lead from the one to the
other and spell the tokens; `Automaton.Accepts` holds of the lists of tokens that are spelled from
the start node to a final node.

`Automaton.follow` takes the first edge for each token, and `Automaton.walk` lists the nodes that it
passes; `getLast?_walk` relates the two.
-/

namespace StateMerging.Automaton

/-- Some edges lead from one node to another and spell a list of tokens. -/
inductive Path (a : Automaton) : NodeId → List String → NodeId → Prop
  | nil (q : NodeId) : Path a q [] q
  | cons {e : EdgeId} {x : Edge} {w : List String} {q : NodeId} (edge : a.edge? e = some x)
      (rest : Path a x.target w q) : Path a x.source (x.label :: w) q

/-- Some path from the start node to a final node spells the tokens. -/
def Accepts (a : Automaton) (w : List String) : Prop := ∃ q ∈ a.finals, a.Path a.start w q

/-- The node reached from `q` by taking the first edge for each token. -/
def follow (a : Automaton) (q : NodeId) : List String → Option NodeId
  | [] => some q
  | t :: ts => (a.successor q t).bind fun p => a.follow p ts

/-- The nodes passed after `q` by taking the first edge for each token, and `none` in place of the
first one that is missing. -/
def walk (a : Automaton) (q : NodeId) : List String → List (Option NodeId)
  | [] => []
  | t :: ts =>
    match a.successor q t with
    | some p => some p :: a.walk p ts
    | none => [none]

theorem Path.append {a : Automaton} {q r s : NodeId} {v w : List String} (h : a.Path q v r)
    (k : a.Path r w s) : a.Path q (v ++ w) s := by
  induction h with
  | nil => exact k
  | cons edge _ ih => exact .cons edge (ih k)

theorem getLast?_walk (a : Automaton) (q : NodeId) (ts : List String) :
    (some q :: a.walk q ts).getLast? = some (a.follow q ts) := by
  induction ts generalizing q with
  | nil => rfl
  | cons t ts ih =>
    cases h : a.successor q t with
    | none => simp [walk, follow, h]
    | some p => simpa [walk, follow, h] using ih p

end StateMerging.Automaton
