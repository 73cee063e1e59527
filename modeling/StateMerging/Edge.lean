/-!
# Edges

An `Edge` leads from one node to another and carries a token as its label.  Nodes and edges are
referred to by handles, `NodeId` and `EdgeId`, which are shown as `q0`, `q1`, … and `e0`, `e1`, ….

An `Adjacency` is what an edge leads to: its label together with its target.  Adjacencies are
ordered by label first and by target second; `instTransOrdAdjacency` and `instLawfulEqOrdAdjacency`
say that this is a linear order.
-/

namespace StateMerging

open Std

/-! ## Handles -/

/-- Handle of a node. -/
abbrev NodeId := Nat

/-- Handle of an edge. -/
abbrev EdgeId := Nat

/-- The text that shows a node handle. -/
def NodeId.text (q : NodeId) : String := "q" ++ toString q

/-- The text that shows an edge handle. -/
def EdgeId.text (e : EdgeId) : String := "e" ++ toString e

/-! ## Adjacencies -/

/-- Where an edge leads: its label and its target. -/
structure Adjacency where
  label : String
  target : NodeId
  deriving DecidableEq

namespace Adjacency

instance : Ord Adjacency := ⟨compareLex (compareOn label) (compareOn target)⟩

instance instTransOrdAdjacency : TransOrd Adjacency :=
  inferInstanceAs (TransCmp (compareLex (compareOn label) (compareOn target)))

instance instLawfulEqOrdAdjacency : LawfulEqOrd Adjacency where
  compare_self {_} := ReflOrd.compare_self
  eq_of_compare := by
    intro a b h
    obtain ⟨h₁, h₂⟩ := Ordering.then_eq_eq.1 h
    have e₁ : a.label = b.label := LawfulEqOrd.eq_of_compare h₁
    have e₂ : a.target = b.target := LawfulEqOrd.eq_of_compare h₂
    cases a
    cases b
    simp_all

/-- The text that shows an adjacency. -/
def text (x : Adjacency) : String := "-" ++ x.label ++ "-> " ++ NodeId.text x.target

end Adjacency

/-! ## Edges -/

/-- A directed edge between two nodes, labelled with a token. -/
structure Edge where
  source : NodeId
  label : String
  target : NodeId
  deriving DecidableEq

namespace Edge

/-- Whether the edge leaves and reaches the same node. -/
def isSelfLoop (x : Edge) : Bool := x.source = x.target

/-- Whether the node is an endpoint of the edge. -/
def incidentTo (x : Edge) (q : NodeId) : Bool := x.source = q || x.target = q

/-- Where the edge leads. -/
def adjacency (x : Edge) : Adjacency := ⟨x.label, x.target⟩

/-- The edge with both endpoints moved along `h`. -/
def map (h : NodeId → NodeId) (x : Edge) : Edge := ⟨h x.source, x.label, h x.target⟩

@[simp] theorem incidentTo_iff {x : Edge} {q : NodeId} :
    x.incidentTo q = true ↔ x.source = q ∨ x.target = q := by
  simp [incidentTo]

@[simp] theorem map_map (g h : NodeId → NodeId) (x : Edge) : (x.map g).map h = x.map (h ∘ g) := rfl

end Edge

end StateMerging
