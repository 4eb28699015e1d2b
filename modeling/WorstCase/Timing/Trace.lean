import WorstCase.Timing.Database

/-!
# Traces

What was seen in the trace of a single graph: how long each edge took at most and how often it was
taken.
-/

namespace WorstCase

/-- Times and counts of edges. -/
structure Trace where
  edgeWcets : NatMap Nat
  edgeCounts : NatMap Nat
  tests : Nat
deriving DecidableEq, Repr

namespace Trace

def empty : Trace := ⟨.empty, .empty, 0⟩

/-- Enters an edge, in place of what was known of it. -/
def addEdge (t : Trace) (edge wcet count : Nat) : Trace :=
  { t with
    edgeWcets := t.edgeWcets.insert edge wcet
    edgeCounts := t.edgeCounts.insert edge count }

/-- A trace belongs to no subprogram; errors name number 0. -/
def edgeWcet (t : Trace) (edge : Nat) : Except DataError Nat :=
  match t.edgeWcets.get? edge with
  | some wcet => .ok wcet
  | none => .error (.missing 0 (.edgeWcet edge))

def edgeCount (t : Trace) (edge : Nat) : Except DataError Nat :=
  match t.edgeCounts.get? edge with
  | some count => .ok count
  | none => .error (.missing 0 (.edgeCount edge))

end Trace

end WorstCase
