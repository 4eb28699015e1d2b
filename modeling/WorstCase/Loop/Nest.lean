import WorstCase.Graph.DepthFirst

/-!
# Loop nests

The targets of the back edges of a depth-first search are loop headers. The loops are found from the
inside out, in post-order of their headers: the body of a loop is gathered by walking edges
backwards from the sources of its back edges up to the header, and is then collapsed into the
header, so that an outer loop meets an inner one as a single vertex. An edge into the middle of a
loop, from a vertex that the header does not lead to, is not followed.

The outcome is a tree in which the parent of a vertex is the header of the innermost loop around it.
The root stands for the whole graph, whether or not an edge leads back to it.
-/

namespace WorstCase

/-- The way up from `v` through a map to parents, given as a list of pairs: the parent of `v`, its
parent and so on, at most as many as given. -/
def ancestorsIn (parents : List (Nat × Nat)) : Nat → Nat → List Nat
  | 0, _ => []
  | steps + 1, v =>
    match parents.lookup v with
    | none => []
    | some p => p :: ancestorsIn parents steps p

/-- A header: the vertex that stands for a loop. -/
structure LoopHeader where
  id : Nat
  parent : Option Nat
  level : Nat
  /-- Whether all back edges to the header start at it. -/
  selfLoop : Bool
  /-- The headers of the loops around this one, from the inside out. -/
  ancestors : List Nat
  /-- The sources of the back edges to the header, in pre-order. -/
  sources : List Nat
  /-- The vertices whose innermost loop is this one, in the order of the graph. -/
  body : List Nat
deriving DecidableEq, Repr

/-- A vertex of a loop nest. -/
inductive LoopNode
  | plain (id parent level : Nat)
  | header (h : LoopHeader)
deriving DecidableEq, Repr

namespace LoopNode

def id : LoopNode → Nat
  | .plain id _ _ => id
  | .header h => h.id

def parent? : LoopNode → Option Nat
  | .plain _ parent _ => some parent
  | .header h => h.parent

def level : LoopNode → Nat
  | .plain _ _ level => level
  | .header h => h.level

def header? : LoopNode → Option LoopHeader
  | .plain _ _ _ => none
  | .header h => some h

end LoopNode

/-- The loops of a graph, as a tree with a node for each vertex, in the order of the graph. -/
structure LoopNest where
  root : Nat
  nodes : List LoopNode
deriving DecidableEq, Repr

/-! ## Finding the loops -/

/-- Which vertices have been collapsed into which header. -/
abbrev Collapse := List (Nat × Nat)

/-- The header that stands for a vertex after all collapses: the vertex itself when it is in no loop
found so far. -/
def Collapse.find (c : Collapse) (v : Nat) : Nat :=
  (ancestorsIn c c.length v).getLastD v

namespace LoopNest

/-- The vertices from which a loop of `header` is entered backwards at `v`: the predecessors of `v`,
each replaced by the header that stands for it, without those that close an inner loop, those that
are in the loop already and those to which the header does not lead. -/
def backwards (g : FlowGraph) (t : DepthFirstTree) (c : Collapse) (header : Nat) (body : List Nat)
    (v : Nat) : List Nat :=
  (g.predecessorEdges v).filterMap fun e =>
    if t.backEdges.contains (e.source, v) then none
    else
      let p := c.find e.source
      if p = header || body.contains p then none
      else if t.isAncestor header p then some p
      else none

/-- Gathers a loop body from a stack of vertices known to be in it. A vertex is gathered once, and
adds at most one entry to the stack for each of its edges, which bounds the number of rounds. -/
def gather (g : FlowGraph) (t : DepthFirstTree) (c : Collapse) (header : Nat) :
    Nat → (work body : List Nat) → List Nat
  | 0, _, body => body
  | _, [], body => body
  | rounds + 1, v :: work, body =>
    if body.contains v then gather g t c header rounds work body
    else
      let body := body ++ [v]
      gather g t c header rounds ((backwards g t c header body v).reverse ++ work) body

/-- The body of the loop of `header`, inner loops being collapsed. -/
def bodyOf (g : FlowGraph) (t : DepthFirstTree) (c : Collapse) (header : Nat) : List Nat :=
  let start := ((t.backSources header).map c.find).filter (· != header)
  gather g t c header (start.length + g.edges.length) start.reverse []

/-- Finds the loop of one header and collapses it. -/
def collapseLoop (g : FlowGraph) (t : DepthFirstTree) (c : Collapse) (header : Nat) : Collapse :=
  if (t.backSources header).isEmpty then c
  else c ++ (bodyOf g t c header).map fun v => (v, header)

/-- Finds all loops, inner ones first. -/
def collapseAll (g : FlowGraph) (t : DepthFirstTree) : Collapse :=
  t.postOrder.foldl (collapseLoop g t) []

/-- The innermost header around each vertex but the root: that of the smallest loop it is in, else
the root. -/
def parentsIn (g : FlowGraph) (t : DepthFirstTree) : List (Nat × Nat) :=
  let c := collapseAll g t
  let rest := g.vertexIds.filter fun v => v != t.root && (c.lookup v).isNone
  c ++ rest.map fun v => (v, t.root)

/-- The node of a vertex. The headers are the root and the targets of back edges. -/
def nodeOf (t : DepthFirstTree) (parents : List (Nat × Nat)) (v : Nat) : LoopNode :=
  let ancestors := ancestorsIn parents parents.length v
  let sources := t.backSources v
  if v = t.root ∨ sources ≠ [] then
    .header
      { id := v
        parent := ancestors.head?
        level := ancestors.length
        selfLoop := !sources.isEmpty && sources.all (· == v)
        ancestors
        sources
        body := t.vertices.filter fun w => parents.lookup w == some v }
  else .plain v (ancestors.headD t.root) ancestors.length

/-- The loop nest of a graph from a depth-first search that has reached every vertex. -/
def ofDepthFirst (g : FlowGraph) (t : DepthFirstTree) : Except TreeError LoopNest :=
  match t.requireSpanning with
  | .error e => .error e
  | .ok t =>
    let parents := parentsIn g t
    .ok ⟨t.root, t.vertices.map (nodeOf t parents)⟩

/-- The loop nest of a graph from its entry. -/
def ofGraph (g : FlowGraph) : Except TreeError LoopNest :=
  match g.entry with
  | .error e => .error (.graph e)
  | .ok entry =>
    match DepthFirstTree.spanning g entry with
    | .error e => .error e
    | .ok t => ofDepthFirst g t

/-! ## Asking a nest -/

def node? (n : LoopNest) (v : Nat) : Option LoopNode :=
  n.nodes.find? (·.id == v)

def node (n : LoopNest) (v : Nat) : Except TreeError LoopNode :=
  match n.node? v with
  | some node => .ok node
  | none => .error (.notFound v)

def header? (n : LoopNest) (v : Nat) : Option LoopHeader :=
  (n.node? v).bind (·.header?)

def header (n : LoopNest) (v : Nat) : Except TreeError LoopHeader :=
  match n.header? v with
  | some h => .ok h
  | none => .error (.notFound v)

def isHeader (n : LoopNest) (v : Nat) : Bool :=
  (n.header? v).isSome

def isSelfLoop (n : LoopNest) (v : Nat) : Bool :=
  (n.header? v).any (·.selfLoop)

def parent? (n : LoopNest) (v : Nat) : Option Nat :=
  (n.node? v).bind (·.parent?)

def level (n : LoopNest) (v : Nat) : Except TreeError Nat :=
  match n.node? v with
  | some node => .ok node.level
  | none => .error (.notFound v)

/-- The number of levels. -/
def height (n : LoopNest) : Nat :=
  n.nodes.foldl (fun height node => max height (node.level + 1)) 0

/-- The nodes of one level, in the order of the graph. -/
def atLevel (n : LoopNest) (level : Nat) : List LoopNode :=
  n.nodes.filter (·.level == level)

/-- The headers, those of inner loops first. -/
def headersInward (n : LoopNest) : List LoopHeader :=
  (List.range n.height).reverse.flatMap fun level => (n.atLevel level).filterMap (·.header?)

/-- The headers, the root first. -/
def headersOutward (n : LoopNest) : List LoopHeader :=
  (List.range n.height).flatMap fun level => (n.atLevel level).filterMap (·.header?)

/-- Climbs from `v` towards the root, at most as many steps as given, until it meets `header`. -/
def climb (n : LoopNest) (header : Nat) : Nat → Nat → Bool
  | 0, v => v == header
  | steps + 1, v =>
    if v = header then true
    else
      match n.parent? v with
      | none => false
      | some p => n.climb header steps p

/-- Whether a vertex is in the loop of `header` or of a loop inside it. -/
def contains (n : LoopNest) (header v : Nat) : Bool :=
  n.climb header n.nodes.length v

/-- The header of the innermost loop that a vertex is in; a header is in its own loop. -/
def innermostHeader? (n : LoopNest) (v : Nat) : Option Nat :=
  if n.isHeader v then some v else n.parent? v

end LoopNest

end WorstCase
