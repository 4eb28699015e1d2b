import WorstCase.Action
import WorstCase.Graph.Basic
import WorstCase.Ordered.NatMap

/-!
# Graphs with an index

A flow graph as it is kept while it is made. Vertices and edges stand in lists, in the order in
which they were added, and two maps give the place of each identifier in its list. What is looked up
goes through the maps, and the list is then read at the place that was found, whatever stands there.
A change checks the request and then updates the maps and the lists one by one, in place: a change
that stops half-way leaves behind what it has done so far.
-/

namespace WorstCase

/-- A flow graph with an index to its vertices and one to its edges. -/
structure IndexedGraph where
  name : String
  vertices : List Vertex
  /-- The places of the vertices. -/
  vertexIndex : NatMap Nat
  edges : List Edge
  /-- The places of the edges. -/
  edgeIndex : NatMap Nat
  entry? : Option Nat
deriving DecidableEq, Repr

namespace IndexedGraph

/-- Why a computation on an indexed graph stops: the graph refuses the request, or a place is
empty. -/
abbrev Stop := WorstCase.Stop GraphError

/-- The graph that the lists stand for. -/
def flow (g : IndexedGraph) : FlowGraph :=
  ⟨g.name, g.vertices, g.edges, g.entry?⟩

/-- The graph without vertices. -/
def empty (name : String) : IndexedGraph :=
  ⟨name, [], .empty, [], .empty, none⟩

/-! ## Looking things up -/

def hasVertex (g : IndexedGraph) (id : Nat) : Bool :=
  g.vertexIndex.contains id

/-- The place of a vertex. -/
def vertexPlace (g : IndexedGraph) (id : Nat) : Except Stop Nat :=
  match g.vertexIndex.get? id with
  | some place => .ok place
  | none => .error (.because (.notFound .vertex id))

/-- The place of an edge. -/
def edgePlace (g : IndexedGraph) (id : Nat) : Except Stop Nat :=
  match g.edgeIndex.get? id with
  | some place => .ok place
  | none => .error (.because (.notFound .edge id))

def vertex (g : IndexedGraph) (id : Nat) : Except Stop Vertex := do
  let place ← g.vertexPlace id
  atPlace g.vertices place

def edge (g : IndexedGraph) (id : Nat) : Except Stop Edge := do
  let place ← g.edgePlace id
  atPlace g.edges place

/-- The edge with an identifier that a vertex lists, and that the index has to know. -/
def listedEdge (g : IndexedGraph) (id : Nat) : Except Stop Edge :=
  match g.edgeIndex.get? id with
  | some place => atPlace g.edges place
  | none => .error .outOfRange

/-- The edges that leave the vertex with this identifier. -/
def successorEdges (g : IndexedGraph) (id : Nat) : Except Stop (List Edge) := do
  let v ← g.vertex id
  v.successors.mapM g.listedEdge

/-- The edges that reach the vertex with this identifier. -/
def predecessorEdges (g : IndexedGraph) (id : Nat) : Except Stop (List Edge) := do
  let v ← g.vertex id
  v.predecessors.mapM g.listedEdge

def entry (g : IndexedGraph) : Except Stop Nat :=
  match g.entry? with
  | some v => .ok v
  | none => .error (.because .noEntry)

/-! ## Changes -/

/-- A computation that reads the graph and changes it in place. -/
abbrev Action (β : Type) := WorstCase.Action Stop IndexedGraph β

/-- Adds a vertex without edges. -/
def addVertex (id : Nat) : Action Unit := do
  let g ← get
  if g.hasVertex id then throw (.because (.duplicate .vertex id))
  modify fun g => { g with vertexIndex := g.vertexIndex.insert id g.vertices.length }
  modify fun g => { g with vertices := g.vertices ++ [⟨id, [], []⟩] }

/-- Updates the vertex at a place. -/
def updateVertex (place : Nat) (f : Vertex → Vertex) : Action Unit := do
  let g ← get
  let v ← (atPlace g.vertices place : Except Stop Vertex)
  set { g with vertices := g.vertices.set place (f v) }

/-- Adds an edge with a new identifier between two vertices of the graph. -/
def addEdge (e : Edge) : Action Unit := do
  let g ← get
  if g.edgeIndex.contains e.id then throw (.because (.duplicate .edge e.id))
  let source ← g.vertexPlace e.source
  let destination ← g.vertexPlace e.destination
  modify fun g => { g with edgeIndex := g.edgeIndex.insert e.id g.edges.length }
  modify fun g => { g with edges := g.edges ++ [e] }
  updateVertex source fun v => { v with successors := v.successors ++ [e.id] }
  updateVertex destination fun v => { v with predecessors := v.predecessors ++ [e.id] }

/-- Gives an edge another kind. -/
def setKind (id : Nat) (kind : EdgeKind) : Action Unit := do
  let g ← get
  let place ← g.edgePlace id
  let e ← (atPlace g.edges place : Except Stop Edge)
  set { g with edges := g.edges.set place { e with kind } }

/-- Names the entry. -/
def setEntry (id : Nat) : Action Unit := do
  let g ← get
  let _ ← g.vertexPlace id
  set { g with entry? := some id }

end IndexedGraph

end WorstCase
