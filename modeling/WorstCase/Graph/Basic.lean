import WorstCase.Ordered.NatSet

/-!
# Flow graphs

A flow graph has vertices and edges with identifiers that its maker chooses, and may name one of its
vertices as the entry. Self loops and parallel edges are allowed. Vertices, edges and the edges at a
vertex are kept in the order in which they were added. Each change either gives the changed graph or
says what is wrong with the request.
-/

namespace WorstCase

/-- What an edge means for the timing of a program. -/
inductive EdgeKind
  /-- A measured transition. -/
  | trace
  /-- An edge that takes no time. -/
  | ghost
  /-- An edge that stands for a call of a subprogram. -/
  | inlined (callee : Nat)
  /-- An edge that starts another iteration of the loops of the headers. -/
  | iteration (headers : NatSet)
  /-- An edge into the loop of a header. -/
  | entry (header : Nat)
  /-- An edge out of the loop of a header. -/
  | exit (header : Nat)
deriving DecidableEq, Repr

namespace EdgeKind

/-- Whether the kind says what the edge does in a loop. -/
def isLoopRole : EdgeKind → Bool
  | .iteration _ | .entry _ | .exit _ => true
  | .trace | .ghost | .inlined _ => false

def text : EdgeKind → String
  | .trace => "trace"
  | .ghost => "ghost"
  | .inlined callee => s!"inlined({callee})"
  | .iteration headers => "iteration\x7b" ++ ", ".intercalate (headers.map toString) ++ "\x7d"
  | .entry header => s!"entry({header})"
  | .exit header => s!"exit({header})"

end EdgeKind

/-- A vertex with the identifiers of the edges that leave it and that reach it. -/
structure Vertex where
  id : Nat
  successors : List Nat
  predecessors : List Nat
deriving DecidableEq, Repr

structure Edge where
  id : Nat
  source : Nat
  destination : Nat
  kind : EdgeKind
deriving DecidableEq, Repr

/-- A directed graph of vertices and edges with identifiers. -/
structure FlowGraph where
  name : String
  vertices : List Vertex
  edges : List Edge
  entry? : Option Nat
deriving DecidableEq, Repr

/-- What an identifier names. -/
inductive GraphItem
  | vertex
  | edge
deriving DecidableEq, Repr

def GraphItem.text : GraphItem → String
  | .vertex => "vertex"
  | .edge => "edge"

/-- Why a graph refuses a request. -/
inductive GraphError
  | duplicate (item : GraphItem) (id : Nat)
  | notFound (item : GraphItem) (id : Nat)
  | noEntry
deriving DecidableEq, Repr

def GraphError.message : GraphError → String
  | .duplicate item id => "Duplicate " ++ item.text ++ s!" identifier {id}"
  | .notFound item id => "No " ++ item.text ++ s!" with identifier {id}"
  | .noEntry => "The graph has no designated entry vertex"

namespace FlowGraph

/-! ## Looking things up -/

/-- The graph without vertices. -/
def empty (name : String) : FlowGraph :=
  ⟨name, [], [], none⟩

def vertex? (g : FlowGraph) (id : Nat) : Option Vertex :=
  g.vertices.find? (·.id == id)

def edge? (g : FlowGraph) (id : Nat) : Option Edge :=
  g.edges.find? (·.id == id)

def hasVertex (g : FlowGraph) (id : Nat) : Bool :=
  (g.vertex? id).isSome

/-- The identifiers of the vertices, in the order of the graph. -/
def vertexIds (g : FlowGraph) : List Nat :=
  g.vertices.map (·.id)

def vertex (g : FlowGraph) (id : Nat) : Except GraphError Vertex :=
  match g.vertex? id with
  | some v => .ok v
  | none => .error (.notFound .vertex id)

def edge (g : FlowGraph) (id : Nat) : Except GraphError Edge :=
  match g.edge? id with
  | some e => .ok e
  | none => .error (.notFound .edge id)

def entry (g : FlowGraph) : Except GraphError Nat :=
  match g.entry? with
  | some v => .ok v
  | none => .error .noEntry

/-- The edges that leave a vertex. -/
def outEdges (g : FlowGraph) (v : Vertex) : List Edge :=
  v.successors.filterMap g.edge?

/-- The edges that reach a vertex. -/
def inEdges (g : FlowGraph) (v : Vertex) : List Edge :=
  v.predecessors.filterMap g.edge?

/-- The edges that leave the vertex with this identifier. -/
def successorEdges (g : FlowGraph) (id : Nat) : List Edge :=
  match g.vertex? id with
  | some v => g.outEdges v
  | none => []

/-- The edges that reach the vertex with this identifier. -/
def predecessorEdges (g : FlowGraph) (id : Nat) : List Edge :=
  match g.vertex? id with
  | some v => g.inEdges v
  | none => []

/-- All edges, vertex by vertex and for each vertex in the order of the edges that leave it. -/
def edgesByVertex (g : FlowGraph) : List Edge :=
  g.vertices.flatMap g.outEdges

/-! ## Changes -/

/-- Adds a vertex without edges. -/
def addVertex (g : FlowGraph) (id : Nat) : Except GraphError FlowGraph :=
  if g.hasVertex id then .error (.duplicate .vertex id)
  else .ok { g with vertices := g.vertices ++ [⟨id, [], []⟩] }

/-- The vertex with a new edge entered at its ends. -/
def attach (e : Edge) (v : Vertex) : Vertex where
  id := v.id
  successors := if v.id = e.source then v.successors ++ [e.id] else v.successors
  predecessors := if v.id = e.destination then v.predecessors ++ [e.id] else v.predecessors

/-- Adds an edge with a new identifier between two vertices of the graph. -/
def addEdge (g : FlowGraph) (e : Edge) : Except GraphError FlowGraph :=
  if (g.edge? e.id).isSome then .error (.duplicate .edge e.id)
  else if !g.hasVertex e.source then .error (.notFound .vertex e.source)
  else if !g.hasVertex e.destination then .error (.notFound .vertex e.destination)
  else .ok { g with edges := g.edges ++ [e], vertices := g.vertices.map (attach e) }

/-- Gives an edge another kind. -/
def setKind (g : FlowGraph) (id : Nat) (kind : EdgeKind) : Except GraphError FlowGraph :=
  if (g.edge? id).isNone then .error (.notFound .edge id)
  else .ok { g with edges := g.edges.map fun e => if e.id = id then { e with kind } else e }

/-- Names the entry. -/
def setEntry (g : FlowGraph) (id : Nat) : Except GraphError FlowGraph :=
  if g.hasVertex id then .ok { g with entry? := some id }
  else .error (.notFound .vertex id)

end FlowGraph

/-! ## Fresh identifiers -/

/-- Hands out identifiers in ascending order while a graph is built. -/
structure IdSupply where
  next : Nat
deriving DecidableEq, Repr

namespace IdSupply

/-- The largest identifier. -/
def largest : Nat := 0xFFFFFFFF

/-- The supply that starts at 1. -/
def start : IdSupply := ⟨1⟩

/-- The next identifier, and the supply without it. -/
def allocate (s : IdSupply) : Nat × IdSupply :=
  (s.next, ⟨s.next + 1⟩)

/-- Moves past an identifier that was chosen in another way. -/
def reserve (s : IdSupply) (id : Nat) : IdSupply :=
  ⟨max s.next (min (id + 1) largest)⟩

end IdSupply

end WorstCase
