import WorstCase.Graph.Basic
import WorstCase.Ordered.NatMap

/-!
# Depth-first search

A search from a root numbers the vertices it reaches twice: in the order in which it comes to them
(pre-order), and in the order in which it leaves them for good (post-order). Every vertex has both
numbers from the start, 0 as long as it has not been reached or left. The search takes the edges at
a vertex in their order and tells from the numbers what to do about each of them. An edge to a
vertex that it has come to and not left yet is a back edge.

The search keeps the vertices between the root and the current one on a stack, each with the
destinations still to be looked at. A step either looks at one destination or leaves a vertex, so
there are at most as many steps as vertices and edges.
-/

namespace WorstCase

/-- A vertex on the way from the root, and the destinations of its edges still to be looked at. -/
structure Frame where
  vertex : Nat
  pending : List Nat
deriving DecidableEq, Repr

/-- The state of a depth-first search. -/
structure Search where
  /-- The vertices reached so far, in the order in which they were reached. -/
  preOrder : List Nat
  /-- The vertices left so far, in the order in which they were left. -/
  postOrder : List Nat
  /-- The number of each vertex in pre-order, counted from 1; 0 for one that is not reached yet. -/
  preNumbers : NatMap Nat
  /-- The number of each vertex in post-order, counted from 1; 0 for one that is not left yet. -/
  postNumbers : NatMap Nat
  /-- Each reached vertex but the root, with the vertex it was reached from. -/
  parents : List (Nat × Nat)
  /-- The sources and targets of back edges, in the order of their discovery. -/
  backEdges : List (Nat × Nat)
  /-- The largest number of vertices on the stack when one was left. -/
  height : Nat
  stack : List Frame
deriving DecidableEq, Repr

namespace Search

/-- The destinations of the edges at a vertex. -/
def destinations (g : FlowGraph) (v : Nat) : List Nat :=
  (g.successorEdges v).map (·.destination)

/-- Numbers for the vertices of a graph, none of which is reached. -/
def unnumbered (g : FlowGraph) : NatMap Nat :=
  .ofList (g.vertexIds.map fun v => (v, 0))

/-- The number of a vertex. -/
def number (numbers : NatMap Nat) (v : Nat) : Nat :=
  (numbers.get? v).getD 0

/-- The search that has just come to its root. -/
def start (g : FlowGraph) (root : Nat) : Search where
  preOrder := [root]
  postOrder := []
  preNumbers := (unnumbered g).insert root 1
  postNumbers := unnumbered g
  parents := []
  backEdges := []
  height := 0
  stack := [⟨root, destinations g root⟩]

/-- Leaves a vertex all of whose destinations have been looked at. -/
def leave (s : Search) (v : Nat) (rest : List Frame) : Search :=
  { s with
    postOrder := s.postOrder ++ [v]
    postNumbers := s.postNumbers.insert v (s.postOrder.length + 1)
    height := max s.height (rest.length + 1)
    stack := rest }

/-- Comes to a new vertex. -/
def enter (g : FlowGraph) (s : Search) (v w : Nat) (stack : List Frame) : Search :=
  { s with
    preOrder := s.preOrder ++ [w]
    preNumbers := s.preNumbers.insert w (s.preOrder.length + 1)
    parents := s.parents ++ [(w, v)]
    stack := ⟨w, destinations g w⟩ :: stack }

/-- Notes a back edge unless it is known. -/
def noteBackEdge (s : Search) (v w : Nat) : Search :=
  if s.backEdges.contains (v, w) then s else { s with backEdges := s.backEdges ++ [(v, w)] }

/-- Looks at the edge from `v` to a vertex `w` that was reached before. One that was reached after
`v` has been left already. -/
def lookBack (s : Search) (v w : Nat) : Search :=
  if number s.preNumbers v < number s.preNumbers w then s
  else if number s.postNumbers w = 0 then s.noteBackEdge v w
  else s

/-- One step: the top vertex is left, or its next destination is looked at. -/
def step (g : FlowGraph) (s : Search) : Search :=
  match s.stack with
  | [] => s
  | ⟨v, []⟩ :: rest => s.leave v rest
  | ⟨v, w :: pending⟩ :: rest =>
    let stack := ⟨v, pending⟩ :: rest
    if number s.preNumbers w = 0 then s.enter g v w stack
    else { s.lookBack v w with stack }

/-- Takes steps until the stack is empty, at most as many as given. -/
def run (g : FlowGraph) : Nat → Search → Search
  | 0, s => s
  | steps + 1, s => if s.stack.isEmpty then s else run g steps (s.step g)

end Search

/-- Why a tree over a graph cannot be built or asked. -/
inductive TreeError
  | invalidRoot (root : Nat)
  | unreachable (root : Nat) (vertices : List Nat)
  | notFound (vertex : Nat)
  | graph (error : GraphError)
deriving DecidableEq, Repr

def TreeError.message : TreeError → String
  | .invalidRoot root => s!"Root {root} is not a vertex of the graph"
  | .unreachable root vertices =>
    "Vertices [" ++ ", ".intercalate (vertices.map toString) ++
      s!"] are unreachable from root {root}"
  | .notFound v => s!"Vertex {v} is not in the tree"
  | .graph _ => "Graph error"

/-- How an edge lies in the tree. -/
inductive EdgeClass
  | tree
  | back
  | crossOrForward
deriving DecidableEq, Repr

/-- The outcome of a depth-first search of a graph. -/
structure DepthFirstTree where
  root : Nat
  /-- All vertices of the graph, reached or not, in the order of the graph. -/
  vertices : List Nat
  preOrder : List Nat
  postOrder : List Nat
  /-- The numbers of all vertices in pre-order, 0 for those not reached. -/
  preNumbers : NatMap Nat
  /-- The numbers of all vertices in post-order, 0 for those not reached. -/
  postNumbers : NatMap Nat
  parents : List (Nat × Nat)
  backEdges : List (Nat × Nat)
  /-- The number of vertices on the longest way from the root to a leaf. -/
  height : Nat
deriving DecidableEq, Repr

namespace DepthFirstTree

/-- The number of steps that is always enough. -/
def stepBound (g : FlowGraph) : Nat :=
  g.vertices.length + g.edges.length

/-- Searches from a root. Vertices that it does not reach are left out of both orders. -/
def search (g : FlowGraph) (root : Nat) : Except TreeError DepthFirstTree :=
  if g.hasVertex root then
    let s := (Search.start g root).run g (stepBound g)
    .ok
      { root
        vertices := g.vertexIds
        preOrder := s.preOrder
        postOrder := s.postOrder
        preNumbers := s.preNumbers
        postNumbers := s.postNumbers
        parents := s.parents
        backEdges := s.backEdges
        height := s.height }
  else .error (.invalidRoot root)

/-- The vertices that the search did not reach, in the order of the graph. -/
def unreached (t : DepthFirstTree) : List Nat :=
  t.vertices.filter fun v => Search.number t.preNumbers v == 0

/-- The complaint about vertices that were not reached. -/
def requireSpanning (t : DepthFirstTree) : Except TreeError DepthFirstTree :=
  if t.unreached.isEmpty then .ok t else .error (.unreachable t.root t.unreached)

/-- Searches from a root that has to reach every vertex. -/
def spanning (g : FlowGraph) (root : Nat) : Except TreeError DepthFirstTree :=
  match search g root with
  | .error e => .error e
  | .ok t => t.requireSpanning

/-- The vertex at a place in an order, counted from 1. -/
def vertexAt? (order : List Nat) (i : Nat) : Option Nat :=
  if i = 0 then none else order[i - 1]?

/-- The number that a vertex has. -/
def index? (numbers : NatMap Nat) (v : Nat) : Except TreeError Nat :=
  match numbers.get? v with
  | some i => .ok i
  | none => .error (.notFound v)

def preIndex? (t : DepthFirstTree) (v : Nat) : Except TreeError Nat :=
  index? t.preNumbers v

def postIndex? (t : DepthFirstTree) (v : Nat) : Except TreeError Nat :=
  index? t.postNumbers v

/-- The vertex from which the search came to `v`. -/
def parent? (t : DepthFirstTree) (v : Nat) : Option Nat :=
  t.parents.lookup v

/-- The targets of the back edges from a vertex, in the order of their discovery. -/
def backTargets (t : DepthFirstTree) (v : Nat) : List Nat :=
  t.backEdges.filterMap fun (source, target) => if source = v then some target else none

/-- The sources of the back edges to a vertex, in pre-order. -/
def backSources (t : DepthFirstTree) (v : Nat) : List Nat :=
  t.preOrder.filter fun source => t.backEdges.contains (source, v)

/-- Whether `a` is `v` or lies between the root and `v`, told from the numbers of both. -/
def isAncestor (t : DepthFirstTree) (a v : Nat) : Bool :=
  match t.preNumbers.get? a, t.postNumbers.get? a, t.preNumbers.get? v, t.postNumbers.get? v with
  | some preA, some postA, some preV, some postV =>
    preA != 0 && preV != 0 && decide (preA ≤ preV) && decide (postV ≤ postA)
  | _, _, _, _ => false

/-- The class of an edge between two vertices. -/
def classify (t : DepthFirstTree) (source destination : Nat) : EdgeClass :=
  if destination ≠ t.root ∧ t.parent? destination = some source then .tree
  else if t.backEdges.contains (source, destination) then .back
  else .crossOrForward

end DepthFirstTree

end WorstCase
