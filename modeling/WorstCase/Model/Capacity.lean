import WorstCase.Model.Basic
import WorstCase.Timing.Trace

/-!
# Models with observed counts

The model of a graph whose edges are capped by how often they were seen in a trace, in place of loop
bounds. The entry is left at most once. Back edges are capped at their counts and have to have been
seen; on demand all edges that were seen are capped, the entry's own apart.
-/

namespace WorstCase.Trace

variable {α : Type} [Scalar α]

/-- Lets the entry be left at most once. -/
def addEntryRow (m : FlowModel α) (entry : Vertex) : Except (ModelError α) (FlowModel α) :=
  if entry.successors.isEmpty then .ok m
  else
    m.addRow (entry.successors, 1) ([], 1) .atMost 1 .capacity s!"Entry vertex {entry.id}"

/-- The cap of an edge, if it has one. With a depth-first tree only its back edges have one. -/
def cap? (t : Trace) (tree? : Option DepthFirstTree) (e : Edge) : Except DataError (Option Nat) :=
  if e.kind = .ghost then .ok none
  else
    match tree? with
    | some tree =>
      if tree.classify e.source e.destination = .back then
        match t.edgeCount e.id with
        | .ok count => .ok (some count)
        | .error error => .error error
      else .ok none
    | none =>
      match t.edgeCount e.id with
      | .ok count => .ok (some count)
      | .error (.missing _ _) => .ok none
      | .error error => .error error

/-- Caps an edge. -/
def addCap (t : Trace) (tree? : Option DepthFirstTree) (m : FlowModel α) (e : Edge) :
    Except (ModelError α) (FlowModel α) :=
  match t.cap? tree? e with
  | .error error => .error (.data error)
  | .ok none => .ok m
  | .ok (some count) => m.setUpper e.id count

/-- The edges that leave other vertices than the entry. -/
def cappedEdges (g : FlowGraph) (entry : Nat) : List Edge :=
  (g.vertices.filter (·.id != entry)).flatMap g.outEdges

/-- Caps the edges of a graph. -/
def addCaps (t : Trace) (g : FlowGraph) (all : Bool) (m : FlowModel α) :
    Except (ModelError α) (FlowModel α) :=
  match g.entry with
  | .error e => .error (.graph e)
  | .ok entry =>
    match g.vertex entry with
    | .error e => .error (.graph e)
    | .ok vertex => do
      let m ← addEntryRow m vertex
      let tree? ← if all then .ok none
        else
          match DepthFirstTree.spanning g entry with
          | .error e => .error (.tree e)
          | .ok tree => .ok (some tree)
      (cappedEdges g entry).foldlM (t.addCap tree?) m

/-- The time of an edge. Only measured edges have to have been seen. -/
def wcetOf (t : Trace) (e : Edge) : Except (ModelError α) Nat :=
  match e.kind with
  | .ghost => .ok 0
  | .trace =>
    match t.edgeWcet e.id with
    | .ok wcet => .ok wcet
    | .error error => .error (.data error)
  | _ =>
    match t.edgeWcet e.id with
    | .ok wcet => .ok wcet
    | .error (.missing _ _) => .ok 0
    | .error error => .error (.data error)

/-- The model of a graph capped by the trace; `all` asks for caps on all edges. -/
def model (t : Trace) (g : FlowGraph) (all : Bool) : Except (ModelError α) (FlowModel α) := do
  let m ← (FlowModel.ofGraph g).addFlowRows g
  let m ← t.addCaps g all m
  m.addObjective g t.wcetOf

end WorstCase.Trace
