import WorstCase.Linear.Problem
import WorstCase.Listing.Printer
import WorstCase.Loop.Partition
import WorstCase.Timing.Database

/-!
# Edge count models

A model of a flow graph is a problem with one column for each edge: how often the edge is taken.
What flows into a vertex flows out of it. Solving the model for the largest total time gives a bound
on the execution time, and the counts that attain it.
-/

namespace WorstCase

/-- Why a model cannot be built, changed or solved. -/
inductive ModelError (α : Type)
  /-- A loop bound is relative to a loop that no edge enters or leaves. -/
  | malformedLoop (header ancestor : Nat)
  | noOptimum (status : Status)
  | strayTag (tag : StrayTag)
  | missingInlined (edge callee : Nat)
  | unknownEdge (edge : Nat)
  | graph (error : GraphError)
  | tree (error : TreeError)
  | data (error : DataError)
  | problem (error : ProblemError α)

def ModelError.message {α : Type} : ModelError α → String
  | .malformedLoop header ancestor =>
    s!"Loop {ancestor} has no entry or exit edges to bound header {header} against"
  | .noOptimum status => "No optimal solution: " ++ status.message
  | .strayTag tag => tag.message
  | .missingInlined edge callee =>
    s!"No WCET supplied for subprogram {callee} inlined at edge {edge}"
  | .unknownEdge edge => s!"Edge {edge} has no column in the model"
  | .graph _ => "Graph error"
  | .tree _ => "Loop nesting tree error"
  | .data _ => "Database error"
  | .problem _ => "ILP error"

/-- A problem whose columns count edges. The edge of column `c` is entry `c - 1` of `edges`. -/
structure FlowModel (α : Type) where
  problem : Problem α
  edges : List Nat

/-- A bound on the execution time, and how often each edge is taken on the way that attains it. -/
structure WcetSolution where
  wcet : Nat
  counts : NatMap Nat
deriving DecidableEq, Repr

/-- The text of a solution, with colours for a terminal if asked for. -/
def WcetSolution.render (s : WcetSolution) (coloured : Bool) : String :=
  let bold (text : String) : String := if coloured then "\x1b[1m" ++ text ++ "\x1b[0m" else text
  let green (text : String) : String := if coloured then "\x1b[32m" ++ text ++ "\x1b[0m" else text
  let lines := s.counts.entries.map fun (edge, count) => s!"  edge_{edge}: {count}\n"
  bold "WCET:" ++ " " ++ green (toString s.wcet) ++ "\n" ++ String.join lines

namespace FlowModel

variable {α : Type}

/-- The column of an edge. -/
def column (m : FlowModel α) (edge : Nat) : Except (ModelError α) Nat :=
  match m.edges.findIdx? (· == edge) with
  | some i => .ok (i + 1)
  | none => .error (.unknownEdge edge)

/-- The edge of a column. -/
def edge? (m : FlowModel α) (column : Nat) : Option Nat :=
  if column = 0 then none else m.edges[column - 1]?

/-- Puts a changed problem in place of the model's. -/
def withProblem (m : FlowModel α) :
    Except (ProblemError α) (Problem α) → Except (ModelError α) (FlowModel α)
  | .ok problem => .ok { m with problem }
  | .error e => .error (.problem e)

/-- The terms that have each of the edges with the same coefficient. -/
def terms (m : FlowModel α) (edges : List Nat) (coefficient : α) :
    Except (ModelError α) (List (Nat × α)) :=
  edges.mapM fun edge =>
    match m.column edge with
    | .ok c => .ok (c, coefficient)
    | .error e => .error e

/-- Adds a row over two groups of edges, each with a coefficient of its own. -/
def addRow (m : FlowModel α) (first : List Nat × α) (second : List Nat × α)
    (comparison : Comparison) (rhs : α) (group : RowGroup) (comment : String) :
    Except (ModelError α) (FlowModel α) := do
  let left ← m.terms first.1 first.2
  let right ← m.terms second.1 second.2
  m.withProblem (m.problem.addRow ⟨left ++ right, comparison, rhs, group, some comment⟩)

variable [Scalar α]

/-- The model with a whole and non-negative count for each edge, and no rows. -/
def ofGraph (g : FlowGraph) : FlowModel α :=
  let edges := g.edgesByVertex.map (·.id)
  { problem := edges.foldl (fun p edge => p.addColumn s!"edge_{edge}" true)
      (.empty g.name .maximise)
    edges }

/-- Adds the row of a vertex: what leaves it equals what reaches it. A vertex where flow starts or
ends has none. -/
def addFlowRow (m : FlowModel α) (v : Vertex) : Except (ModelError α) (FlowModel α) :=
  if v.predecessors.isEmpty || v.successors.isEmpty then .ok m
  else m.addRow (v.successors, 1) (v.predecessors, -1) .equal 0 .flow s!"Vertex {v.id}"

/-- Adds the rows of all vertices. -/
def addFlowRows (m : FlowModel α) (g : FlowGraph) : Except (ModelError α) (FlowModel α) :=
  g.vertices.foldlM addFlowRow m

/-- Sets the time of the edge of each column, as `wcetOf` gives it. -/
def addObjective (m : FlowModel α) (g : FlowGraph) (wcetOf : Edge → Except (ModelError α) Nat) :
    Except (ModelError α) (FlowModel α) :=
  m.edges.zipIdx.foldlM
    (fun m (id, i) =>
      match g.edge id with
      | .error e => .error (.graph e)
      | .ok edge =>
        match wcetOf edge with
        | .error e => .error e
        | .ok wcet => m.withProblem (m.problem.setObjective (i + 1) (Scalar.ofNat wcet)))
    m

/-- Lets an edge be taken at most `count` times. -/
def setUpper (m : FlowModel α) (edge count : Nat) : Except (ModelError α) (FlowModel α) :=
  match m.column edge with
  | .error e => .error e
  | .ok c => m.withProblem (m.problem.setUpper c (Scalar.ofNat count))

/-- Makes an edge be taken at least `count` times. -/
def setLower (m : FlowModel α) (edge count : Nat) : Except (ModelError α) (FlowModel α) :=
  match m.column edge with
  | .error e => .error e
  | .ok c => m.withProblem (m.problem.setLower c (Scalar.ofNat count))

/-- The listing of the model. -/
def listing [Numeral α] (m : FlowModel α) : String :=
  m.problem.listing

/-! ## Solving -/

/-- The count that a value of the solver stands for: the nearest whole number, which has to fit in
64 bits; below zero it is zero. -/
def countOf (value : α) : Except (ModelError α) Nat :=
  match Scalar.nearest? value with
  | none => .error (.noOptimum .numericalFailure)
  | some n => if n ≤ 0xFFFFFFFFFFFFFFFF then .ok n.toNat else .error (.noOptimum .numericalFailure)

/-- Solves the model and rounds the outcome to counts. -/
def solve (m : FlowModel α) (solver : Solver α) : Except (ModelError α) WcetSolution :=
  match solver m.problem with
  | .error status => .error (.noOptimum status)
  | .ok solution => do
    let counts ← (m.edges.zip solution.values).mapM fun (edge, value) => do
      let count ← countOf value
      return (edge, count)
    let wcet ← countOf solution.objective
    return ⟨wcet, .ofList counts⟩

/-- The counts of a solution as values for the columns. A column whose edge has no count gets a
value that is no number. -/
def valuesOf (m : FlowModel α) (s : WcetSolution) : List α :=
  m.edges.map fun edge =>
    match s.counts.get? edge with
    | some count => Scalar.ofNat count
    | none => 0 / 0

end FlowModel

end WorstCase
