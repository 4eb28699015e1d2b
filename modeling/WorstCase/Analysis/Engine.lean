import WorstCase.Analysis.Archive
import WorstCase.Analysis.Settings
import WorstCase.Model.Capacity
import WorstCase.Model.Loops
import WorstCase.Program.Order

/-!
# Calculation

Calculates a bound for each subprogram of a program, callees first, so that the time of a call is
known when its caller is modelled. A subprogram whose model cannot be built or solved is noted as a
failure and the calculation goes on.
-/

namespace WorstCase

/-- A subprogram that got no bound. -/
structure Failure where
  subprogram : Nat
  name : String
  error : ModelError Float
  /-- The name of the file with the listing of the model, if there is one. -/
  listing : Option String

def Failure.message (f : Failure) : String :=
  "WCET calculation of " ++ f.name ++ " failed"

/-- What a calculation works on. -/
structure Engine where
  program : Program
  database : Database
  settings : Settings
  solver : Solver Float

/-- What has been calculated so far. -/
structure Results where
  wcets : NatMap Nat
  solutions : NatMap WcetSolution
  failures : List Failure

def Results.empty : Results := ⟨.empty, .empty, []⟩

namespace Engine

/-- Writes the listing of a model if the settings ask for it. Gives the name of the file written. -/
def archiveModel (e : Engine) (a : Archive) (m : FlowModel Float) (name : String) (tests : Nat) :
    Archive × Option String :=
  match e.settings.listingDirectory with
  | none => (a, none)
  | some _ =>
    let file := name ++ s!".lp{tests}"
    let (a, written) := a.write file m.listing
    (a, if written then some file else none)

/-- The model of a subprogram, given the times of those it calls. -/
def modelOf (e : Engine) (wcets : NatMap Nat) (s : Subprogram) :
    Except (ModelError Float) (FlowModel Float) :=
  { Scenario.ofSubprogram s e.database with
    inlinedWcets := wcets
    level := e.settings.loopConstraintLevel }.model

/-- The number of tests that the database has for a subprogram. -/
def testsOf (e : Engine) (s : Subprogram) : Nat :=
  match e.database.tests s.id with
  | .ok tests => tests
  | .error _ => 0

/-- Calculates one subprogram, given the times of those it calls. -/
def calculate (e : Engine) (a : Archive) (wcets : NatMap Nat) (s : Subprogram) :
    Archive × Except Failure WcetSolution :=
  match e.modelOf wcets s with
  | .error error => (a, .error ⟨s.id, s.name, error, none⟩)
  | .ok m =>
    let (a, file) := e.archiveModel a m s.name (e.testsOf s)
    match m.solve e.solver with
    | .error error => (a, .error ⟨s.id, s.name, error, file⟩)
    | .ok solution => (a, .ok solution)

/-- Calculates one subprogram and notes the outcome. -/
def advance (e : Engine) (state : Archive × Results) (s : Subprogram) : Archive × Results :=
  let (a, r) := state
  match e.calculate a r.wcets s with
  | (a, .ok solution) =>
    (a, { r with
      wcets := r.wcets.insert s.id solution.wcet
      solutions := r.solutions.insert s.id solution })
  | (a, .error failure) => (a, { r with failures := r.failures ++ [failure] })

/-- Calculates the subprograms of the program in bottom-up order. Fails only if there is none. -/
def run (e : Engine) (a : Archive) (r : Results) : Except ProgramError (Archive × Results) :=
  match e.program.bottomUp with
  | .error error => .error error
  | .ok order => .ok ((order.filterMap e.program.find?).foldl e.advance (a, r))

/-- Calculates the subprograms with the given numbers one after the other, and stops at a number
that no subprogram has. -/
def calculateEach (e : Engine) :
    List Nat → Archive × Results → Except ProgramError Unit × (Archive × Results)
  | [], state => (.ok (), state)
  | id :: ids, state =>
    match e.program.subprogram id with
    | .error error => (.error error, state)
    | .ok s => e.calculateEach ids (e.advance state s)

/-- A run with what it answers and what it leaves behind, also when it fails. -/
def runInPlace (e : Engine) (state : Archive × Results) :
    Except ProgramError Unit × (Archive × Results) :=
  match e.program.bottomUp with
  | .error error => (.error error, state)
  | .ok order => e.calculateEach order state

/-- Calculates a single graph from a trace. -/
def calculateTrace (e : Engine) (a : Archive) (g : FlowGraph) (t : Trace) :
    Archive × Except (ModelError Float) WcetSolution :=
  match t.model g e.settings.allConstraints with
  | .error error => (a, .error error)
  | .ok m =>
    let (a, _) := e.archiveModel a m g.name t.tests
    (a, m.solve e.solver)

end Engine

end WorstCase
