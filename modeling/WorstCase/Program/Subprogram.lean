import WorstCase.Loop.Tag

/-!
# Programs

A subprogram is a flow graph with its loop nest. A program is a list of subprograms with different
identifiers, some of which may call others.
-/

namespace WorstCase

/-- Why a program or a subprogram cannot be made, or has no order. -/
inductive ProgramError
  | duplicate (subprogram : Nat)
  | unknown (subprogram : Nat)
  | unknownCallee (caller callee : Nat)
  | recursive (subprogram : Nat)
  | tree (error : TreeError)
deriving DecidableEq, Repr

def ProgramError.message : ProgramError → String
  | .duplicate id => s!"Duplicate subprogram identifier {id}"
  | .unknown id => s!"No subprogram with identifier {id}"
  | .unknownCallee caller callee => s!"Subprogram {caller} inlines unknown subprogram {callee}"
  | .recursive id => s!"Subprogram {id} is (mutually) recursive"
  | .tree _ => "Loop nesting tree error"

/-- A flow graph with a name and its loops. -/
structure Subprogram where
  id : Nat
  name : String
  graph : FlowGraph
  nest : LoopNest
deriving DecidableEq, Repr

namespace Subprogram

/-- The subprogram of a graph whose entry reaches every vertex. -/
def ofGraph (id : Nat) (name : String) (graph : FlowGraph) : Except ProgramError Subprogram :=
  match LoopNest.ofGraph graph with
  | .error e => .error (.tree e)
  | .ok nest => .ok ⟨id, name, graph, nest⟩

/-- The subprogram of a graph, its measured edges given the role they have in its loops. -/
def ofGraphTagged (id : Nat) (name : String) (graph : FlowGraph) :
    Except ProgramError Subprogram :=
  match ofGraph id name graph with
  | .error e => .error e
  | .ok s => .ok { s with graph := s.nest.tagEdges s.graph }

/-- The subprograms that this one calls, in the order of their first call. -/
def callees (s : Subprogram) : List Nat :=
  s.graph.edges.foldl
    (fun callees e =>
      match e.kind with
      | .inlined callee => if callees.contains callee then callees else callees ++ [callee]
      | _ => callees)
    []

end Subprogram

/-- Subprograms in the order in which they were added. -/
structure Program where
  subprograms : List Subprogram
deriving DecidableEq, Repr

namespace Program

def empty : Program := ⟨[]⟩

def find? (p : Program) (id : Nat) : Option Subprogram :=
  p.subprograms.find? (·.id == id)

def subprogram (p : Program) (id : Nat) : Except ProgramError Subprogram :=
  match p.find? id with
  | some s => .ok s
  | none => .error (.unknown id)

/-- Adds a subprogram with a new identifier. -/
def add (p : Program) (s : Subprogram) : Except ProgramError Program :=
  if (p.find? s.id).isSome then .error (.duplicate s.id)
  else .ok ⟨p.subprograms ++ [s]⟩

end Program

end WorstCase
