import WorstCase.Loop.Nest
import WorstCase.Ordered.NatMap

/-!
# Loop edges by header

Sorts the edges with a loop role over the headers that they name. A role that names a vertex which
is no header is refused.
-/

namespace WorstCase

/-- An edge whose role names a vertex that is no header. -/
structure StrayTag where
  edge : Nat
  header : Nat
deriving DecidableEq, Repr

def StrayTag.message (t : StrayTag) : String :=
  s!"Edge {t.edge} is tagged with {t.header}, which is not a loop header"

/-- For each header, the edges that iterate, enter and leave its loop, and the header itself with
the headers around it, from the inside out. -/
structure LoopPartition where
  backEdges : NatMap (List Nat)
  entryEdges : NatMap (List Nat)
  exitEdges : NatMap (List Nat)
  ancestors : NatMap (List Nat)
deriving DecidableEq, Repr

namespace LoopPartition

/-- No edges for any header, and the headers around each. The root comes first, so that the headers
around a loop are known before it. -/
def start (n : LoopNest) : LoopPartition :=
  n.headersOutward.foldl
    (fun p h =>
      let around := match h.parent with
        | some parent => (p.ancestors.get? parent).getD []
        | none => []
      { backEdges := p.backEdges.insert h.id []
        entryEdges := p.entryEdges.insert h.id []
        exitEdges := p.exitEdges.insert h.id []
        ancestors := p.ancestors.insert h.id (h.id :: around) })
    ⟨.empty, .empty, .empty, .empty⟩

/-- Adds an edge to the list of a header. -/
def push (lists : NatMap (List Nat)) (edge header : Nat) : Except StrayTag (NatMap (List Nat)) :=
  match lists.get? header with
  | some edges => .ok (lists.insert header (edges ++ [edge]))
  | none => .error ⟨edge, header⟩

/-- Adds an edge to the lists of several headers. -/
def pushAll (lists : NatMap (List Nat)) (edge : Nat) :
    List Nat → Except StrayTag (NatMap (List Nat))
  | [] => .ok lists
  | header :: rest =>
    match push lists edge header with
    | .error e => .error e
    | .ok lists => pushAll lists edge rest

/-- Sorts in one edge. -/
def add (p : LoopPartition) (e : Edge) : Except StrayTag LoopPartition :=
  match e.kind with
  | .iteration headers =>
    match pushAll p.backEdges e.id headers with
    | .error e => .error e
    | .ok backEdges => .ok { p with backEdges }
  | .entry header =>
    match push p.entryEdges e.id header with
    | .error e => .error e
    | .ok entryEdges => .ok { p with entryEdges }
  | .exit header =>
    match push p.exitEdges e.id header with
    | .error e => .error e
    | .ok exitEdges => .ok { p with exitEdges }
  | .trace | .ghost | .inlined _ => .ok p

/-- Sorts in edges in their order. -/
def addAll (p : LoopPartition) : List Edge → Except StrayTag LoopPartition
  | [] => .ok p
  | e :: rest =>
    match p.add e with
    | .error e => .error e
    | .ok p => p.addAll rest

/-- Sorts the edges of a graph over the headers of a nest. -/
def ofGraph (g : FlowGraph) (n : LoopNest) : Except StrayTag LoopPartition :=
  (start n).addAll g.edgesByVertex

/-- The edges that start an iteration of the loop of a header. -/
def backOf (p : LoopPartition) (header : Nat) : List Nat :=
  (p.backEdges.get? header).getD []

/-- The edges that enter the loop of a header. -/
def entryOf (p : LoopPartition) (header : Nat) : List Nat :=
  (p.entryEdges.get? header).getD []

/-- The edges that leave the loop of a header. -/
def exitOf (p : LoopPartition) (header : Nat) : List Nat :=
  (p.exitEdges.get? header).getD []

/-- A header and the headers around it, from the inside out. -/
def ancestorsOf (p : LoopPartition) (header : Nat) : List Nat :=
  (p.ancestors.get? header).getD []

end LoopPartition

end WorstCase
