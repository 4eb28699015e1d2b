import WorstCase.Model.Basic
import WorstCase.Program.Subprogram

/-!
# Models with loop bounds

The model of a subprogram whose loops are bounded by data. Each loop gets a row for each loop around
it that it has a bound for: its iterations are at most the bound times the number of times that loop
is entered. The loop of the entry iterates at most once, and a loop of a single vertex at most once
for each time it is entered.
-/

namespace WorstCase

/-- What the model of a subprogram is built from. -/
structure Scenario where
  graph : FlowGraph
  nest : LoopNest
  database : Database
  /-- The number under which the database has the data. -/
  subprogram : Nat
  /-- The execution times of the subprograms that are called. -/
  inlinedWcets : NatMap Nat
  /-- How many levels a loop bound may reach outwards. -/
  level : Nat

namespace Scenario

/-- The scenario of a subprogram: nothing is known of its callees, and bounds of any reach count. -/
def ofSubprogram (s : Subprogram) (database : Database) : Scenario where
  graph := s.graph
  nest := s.nest
  database
  subprogram := s.id
  inlinedWcets := .empty
  level := 0xFFFFFFFF

variable {α : Type} [Scalar α]

/-- The edges that tell how often a loop is entered: those that enter it or, if there are none,
those that leave it. -/
def crossings? (p : LoopPartition) (header : Nat) : Option (List Nat) :=
  if !(p.entryOf header).isEmpty then some (p.entryOf header)
  else if !(p.exitOf header).isEmpty then some (p.exitOf header)
  else none

/-- Limits the iterations of the loop of the entry. -/
def addEntryLoop (m : FlowModel α) (header : Nat) (back : List Nat) :
    Except (ModelError α) (FlowModel α) :=
  match back with
  | [edge] => m.setUpper edge 1
  | _ => m.addRow (back, 1) ([], 1) .atMost 1 .loop s!"Header {header}"

/-- Limits the iterations of a loop of a single vertex. -/
def addSelfLoop (p : LoopPartition) (m : FlowModel α) (header : Nat) (back : List Nat) :
    Except (ModelError α) (FlowModel α) :=
  match crossings? p header with
  | none => .error (.malformedLoop header header)
  | some edges => m.addRow (back, 1) (edges, -1) .atMost 0 .loop s!"Self loop {header}"

/-- Limits the iterations of a loop for each time that `ancestor`, which is it or a loop around it,
is entered. The bound is the one relative to the parent of `ancestor`. -/
def addBound (s : Scenario) (p : LoopPartition) (entry : Nat) (h : LoopHeader) (back : List Nat)
    (m : FlowModel α) (ancestor : Nat) : Except (ModelError α) (FlowModel α) :=
  if ancestor = entry then .ok m
  else
    match s.nest.parent? ancestor with
    | none => .error (.malformedLoop h.id ancestor)
    | some parent =>
      match s.nest.level parent with
      | .error e => .error (.tree e)
      | .ok level =>
        if s.level < h.level - level then .ok m
        else
          match s.database.loopBound s.subprogram h.id parent with
          | .error e => .error (.data e)
          | .ok bound =>
            match crossings? p ancestor with
            | none => .error (.malformedLoop h.id ancestor)
            | some edges =>
              m.addRow (back, 1) (edges, -Scalar.ofNat bound) .atMost 0 .loop
                s!"Header {h.id} with respect to {parent}"

/-- Limits the iterations of the loop of a header. -/
def addHeader (s : Scenario) (p : LoopPartition) (entry : Nat) (m : FlowModel α) (h : LoopHeader) :
    Except (ModelError α) (FlowModel α) :=
  let back := p.backOf h.id
  if back.isEmpty then .ok m
  else if h.id = entry then addEntryLoop m h.id back
  else if h.selfLoop then addSelfLoop p m h.id back
  else (p.ancestorsOf h.id).foldlM (s.addBound p entry h back) m

/-- Limits the iterations of all loops, inner ones first. -/
def addLoops (s : Scenario) (p : LoopPartition) (m : FlowModel α) :
    Except (ModelError α) (FlowModel α) :=
  match s.graph.entry with
  | .error e => .error (.graph e)
  | .ok entry => s.nest.headersInward.foldlM (s.addHeader p entry) m

/-- The time of an edge. One with a role in a loop need not have been measured. -/
def wcetOf (s : Scenario) (e : Edge) : Except (ModelError α) Nat :=
  match e.kind with
  | .ghost => .ok 0
  | .trace =>
    match s.database.unitWcet s.subprogram e.id with
    | .ok wcet => .ok wcet
    | .error error => .error (.data error)
  | .inlined callee =>
    match s.inlinedWcets.get? callee with
    | some wcet => .ok wcet
    | none => .error (.missingInlined e.id callee)
  | .iteration _ | .entry _ | .exit _ =>
    match s.database.unitWcet s.subprogram e.id with
    | .ok wcet => .ok wcet
    | .error (.missing _ _) => .ok 0
    | .error error => .error (.data error)

/-- The model of the scenario. -/
def model (s : Scenario) : Except (ModelError α) (FlowModel α) :=
  match LoopPartition.ofGraph s.graph s.nest with
  | .error tag => .error (.strayTag tag)
  | .ok p => do
    let m ← (FlowModel.ofGraph s.graph).addFlowRows s.graph
    let m ← s.addLoops p m
    m.addObjective s.graph s.wcetOf

end Scenario

end WorstCase
