import WorstCase.Graph.DepthFirst
import WorstCase.Ordered.NatMap

/-!
# Timing data

For each subprogram: how long its units take at most (a unit is a vertex or an edge of its graph),
how often its loops iterate at most for each execution of a loop around them, and what was seen
while it was tested. Data for a subprogram is stored once. Nothing is made up for what is missing.
-/

namespace WorstCase

/-- What a look-up asked for. -/
inductive DataItem
  | subprogram
  | unitWcet (unit : Nat)
  | loopBound (header ancestor : Nat)
  | observedPaths (unit : Nat)
  | edgeWcet (edge : Nat)
  | edgeCount (edge : Nat)
deriving DecidableEq, Repr

def DataItem.text : DataItem → String
  | .subprogram => "subprogram data"
  | .unitWcet unit => s!"WCET of unit {unit}"
  | .loopBound header ancestor => s!"bound of header {header} relative to {ancestor}"
  | .observedPaths unit => s!"observed paths through unit {unit}"
  | .edgeWcet edge => s!"WCET of edge {edge}"
  | .edgeCount edge => s!"execution count of edge {edge}"

/-- Why timing data cannot be given or stored. -/
inductive DataError
  | missing (subprogram : Nat) (item : DataItem)
  | duplicate (subprogram : Nat)
  | tree (error : TreeError)
deriving DecidableEq, Repr

def DataError.message : DataError → String
  | .missing subprogram item => "Missing " ++ item.text ++ s!" for subprogram {subprogram}"
  | .duplicate subprogram => s!"Data for subprogram {subprogram} has already been inserted"
  | .tree _ => "Loop nesting tree error"

/-- The data for one subprogram. -/
structure SubprogramData where
  unitWcets : NatMap Nat
  /-- For a header, and then for a header around it: the number of iterations. -/
  loopBounds : NatMap (NatMap Nat)
  /-- For a unit: the units seen in the executions that went through it. -/
  observedPaths : NatMap NatSet
  /-- How many tests were run. -/
  tests : Nat
  /-- The longest execution time that was measured. -/
  longestMeasured : Nat
deriving DecidableEq, Repr

namespace SubprogramData

def empty : SubprogramData :=
  ⟨.empty, .empty, .empty, 0, 0⟩

def setUnitWcet (d : SubprogramData) (unit wcet : Nat) : SubprogramData :=
  { d with unitWcets := d.unitWcets.insert unit wcet }

/-- Sets how often the loop of `header` iterates at most for each execution of `ancestor`. -/
def setLoopBound (d : SubprogramData) (header ancestor bound : Nat) : SubprogramData :=
  let bounds := (d.loopBounds.get? header).getD .empty
  { d with loopBounds := d.loopBounds.insert header (bounds.insert ancestor bound) }

/-- Adds units that were seen in executions through `unit`. -/
def addObserved (d : SubprogramData) (unit : Nat) (observed : List Nat) : SubprogramData :=
  let before := (d.observedPaths.get? unit).getD []
  let after := observed.foldl (fun set n => NatSet.insert n set) before
  { d with observedPaths := d.observedPaths.insert unit after }

def loopBound? (d : SubprogramData) (header ancestor : Nat) : Option Nat :=
  (d.loopBounds.get? header).bind (·.get? ancestor)

end SubprogramData

/-- The data for the subprograms of a program. -/
structure Database where
  subprograms : NatMap SubprogramData
deriving DecidableEq, Repr

namespace Database

def empty : Database := ⟨.empty⟩

/-- Stores the data for a subprogram that has none yet. -/
def insert (db : Database) (subprogram : Nat) (data : SubprogramData) : Except DataError Database :=
  if db.subprograms.contains subprogram then .error (.duplicate subprogram)
  else .ok ⟨db.subprograms.insert subprogram data⟩

def contains (db : Database) (subprogram : Nat) : Bool :=
  db.subprograms.contains subprogram

def data (db : Database) (subprogram : Nat) : Except DataError SubprogramData :=
  match db.subprograms.get? subprogram with
  | some d => .ok d
  | none => .error (.missing subprogram .subprogram)

/-- Looks up one item of the data for a subprogram. -/
def item {β : Type} (db : Database) (subprogram : Nat) (item : DataItem)
    (find : SubprogramData → Option β) : Except DataError β :=
  match db.data subprogram with
  | .error e => .error e
  | .ok d =>
    match find d with
    | some x => .ok x
    | none => .error (.missing subprogram item)

def unitWcet (db : Database) (subprogram unit : Nat) : Except DataError Nat :=
  db.item subprogram (.unitWcet unit) (·.unitWcets.get? unit)

/-- How often the loop of `header` iterates at most for each execution of `ancestor`. -/
def loopBound (db : Database) (subprogram header ancestor : Nat) : Except DataError Nat :=
  db.item subprogram (.loopBound header ancestor) (·.loopBound? header ancestor)

/-- The timed units that were never seen together with `unit`, in ascending order. -/
def infeasibleUnits (db : Database) (subprogram unit : Nat) : Except DataError (List Nat) :=
  db.item subprogram (.observedPaths unit) fun d =>
    (d.observedPaths.get? unit).map fun observed =>
      d.unitWcets.keys.filter fun u => !observed.contains u

/-- The number of units that take any time. -/
def unitsCovered (db : Database) (subprogram : Nat) : Except DataError Nat :=
  match db.data subprogram with
  | .error e => .error e
  | .ok d => .ok (d.unitWcets.values.countP (· != 0))

def isCovered (db : Database) (subprogram unit : Nat) : Except DataError Bool :=
  match db.unitWcet subprogram unit with
  | .error e => .error e
  | .ok wcet => .ok (0 < wcet)

def tests (db : Database) (subprogram : Nat) : Except DataError Nat :=
  match db.data subprogram with
  | .error e => .error e
  | .ok d => .ok d.tests

def longestMeasured (db : Database) (subprogram : Nat) : Except DataError Nat :=
  match db.data subprogram with
  | .error e => .error e
  | .ok d => .ok d.longestMeasured

end Database

end WorstCase
