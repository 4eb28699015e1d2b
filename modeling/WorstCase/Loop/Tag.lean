import WorstCase.Loop.Nest

/-!
# Loop roles of edges

A loop nest gives measured edges their role: an edge that closes a loop starts an iteration, an edge
from outside a loop to its header enters it, and an edge that leaves loops leaves the innermost one.
Edges that have another kind already keep it.
-/

namespace WorstCase.LoopNest

/-- The role of an edge, if it has one. Nothing enters or leaves the loop of the root. -/
def role? (n : LoopNest) (source destination : Nat) : Option EdgeKind :=
  if n.isHeader destination && n.contains destination source then some (.iteration [destination])
  else if n.isHeader destination && destination != n.root then some (.entry destination)
  else
    match n.innermostHeader? source with
    | none => none
    | some h => if h != n.root && !n.contains h destination then some (.exit h) else none

/-- The kind that the nest gives to an edge, if it changes it. -/
def tag? (n : LoopNest) (e : Edge) : Option EdgeKind :=
  if e.kind = .trace then n.role? e.source e.destination else none

/-- Gives the measured edges of a graph their roles. -/
def tagEdges (n : LoopNest) (g : FlowGraph) : FlowGraph :=
  { g with
    edges := g.edges.map fun e =>
      match n.tag? e with
      | some kind => { e with kind }
      | none => e }

/-- The number of edges that get a role. -/
def tagCount (n : LoopNest) (g : FlowGraph) : Nat :=
  g.edges.countP fun e => (n.tag? e).isSome

end WorstCase.LoopNest
