import WorstCase.Analysis.Engine
import WorstCase.Listing.Parser

/-!
# Single requests

A request takes one graph from its description to its bound: it reads the settings, looks at a
listing and a root if there are any, finds the loops, stores the timing data, and builds and solves
the model. The first thing that goes wrong ends it.
-/

namespace WorstCase

/-- What can go wrong in a request. -/
inductive RequestError
  | graph (error : GraphError)
  | tree (error : TreeError)
  | data (error : DataError)
  | problem (error : ProblemError Float)
  | listing (error : ListingError Float)
  | model (error : ModelError Float)
  | program (error : ProgramError)
  | settings (error : SettingsError)

def RequestError.message : RequestError → String
  | .graph _ => "Graph error"
  | .tree _ => "Tree error"
  | .data _ => "Database error"
  | .problem _ => "ILP error"
  | .listing _ => "Model listing error"
  | .model _ => "IPET error"
  | .program _ => "Program error"
  | .settings _ => "Configuration error"

/-- The description of a graph. -/
structure GraphSpec where
  name : String
  vertices : List Nat
  edges : List Edge
  entry? : Option Nat

/-- The graph that is described: vertices first, then edges, then the entry. -/
def GraphSpec.build (spec : GraphSpec) : Except GraphError FlowGraph := do
  let g ← spec.vertices.foldlM FlowGraph.addVertex (.empty spec.name)
  let g ← spec.edges.foldlM FlowGraph.addEdge g
  match spec.entry? with
  | none => return g
  | some entry => g.setEntry entry

/-- A request for the bound of one graph. -/
structure Request where
  id : Nat
  graph : GraphSpec
  data : List (Nat × SubprogramData)
  environment : String → Option String
  listing? : Option String
  /-- A lower bound for the first column of the listing. -/
  lower? : Option Float
  root? : Option Nat

/-- What a request gives: the problem of the listing, the listing of the model and the bound. -/
structure Response where
  problem? : Option (Problem Float)
  listing : String
  solution : WcetSolution

namespace Request

/-- Takes the outcome of a step into the request. -/
def lift {ε β : Type} (wrap : ε → RequestError) : Except ε β → Except RequestError β
  | .ok x => .ok x
  | .error e => .error (wrap e)

/-- The problem of the listing, with the lower bound set. -/
def readListing (r : Request) : Except RequestError (Option (Problem Float)) :=
  match r.listing? with
  | none => .ok none
  | some text => do
    let p ← lift .listing (Listing.parse text)
    match r.lower? with
    | none => return some p
    | some lower => return some (← lift .problem (p.setLower 1 lower))

/-- Carries out the request. -/
def run (r : Request) : Except RequestError Response := do
  let g ← lift .graph r.graph.build
  let settings ← lift .settings (Settings.ofLookup r.environment)
  let problem? ← r.readListing
  if let some root := r.root? then
    let _ ← lift .tree (DepthFirstTree.spanning g root)
  let s ← lift .program (Subprogram.ofGraphTagged r.id g.name g)
  let db ← lift .data (r.data.foldlM (fun db entry => db.insert entry.1 entry.2) Database.empty)
  let m ← lift .model
    { Scenario.ofSubprogram s db with level := settings.loopConstraintLevel }.model
  let solution ← lift .model (m.solve settings.solver)
  return ⟨problem?, m.listing, solution⟩

end Request

end WorstCase
