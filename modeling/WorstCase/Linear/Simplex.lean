import WorstCase.Linear.Tableau

/-!
# The two-phase simplex method

Solves the relaxation of a problem, in which columns need not be whole. The first phase drives the
artificial variables to zero, or shows that the constraints contradict each other; the second
optimises the real objective with the artificial variables barred from the basis.
-/

namespace WorstCase

/-- Bounds for the columns of a problem, in column order. -/
structure Box (α : Type) where
  lower : List α
  upper : List (Option α)

/-- The bounds that the columns of a problem come with. -/
def Problem.box {α : Type} (p : Problem α) : Box α :=
  ⟨p.columns.map (·.lower), p.columns.map (·.upper)⟩

/-- The simplex method with a limit on the pivots of each phase. -/
structure Simplex (α : Type) where
  precision : Precision α
  maxIterations : Nat

namespace Simplex

/-- The limit on pivots when none is asked for. -/
def defaultIterations : Nat := 100000

/-- The simplex method on doubles. -/
def double (maxIterations : Nat) : Simplex Float := ⟨.double, maxIterations⟩

variable {α : Type} [Scalar α]

/-- The first phase: a tableau whose basis is feasible for the constraints. -/
@[specialize]
def phaseOne (s : Simplex α) (t : Tableau α) : Except Status (Tableau α) :=
  if t.artificialStart < t.width then
    match t.loadPhaseOne.iterate s.precision.pivot t.width s.maxIterations with
    | .error .unbounded => .error .numericalFailure
    | .error status => .error status
    | .ok t =>
      if t.objective.constant < -s.precision.feasibility then .error .infeasible
      else .ok (t.driveOutArtificials s.precision.pivot)
  else
    .ok t

/-- The second phase: from a feasible basis to an optimal one. -/
@[specialize]
def phaseTwo (s : Simplex α) (p : Problem α) (t : Tableau α) : Except Status (Tableau α) :=
  let costs := p.columns.map fun column => p.direction.sense * column.objective
  (t.loadObjective costs).iterate s.precision.pivot t.artificialStart s.maxIterations

/-- Whether some upper bound of the box lies below its lower bound. -/
@[specialize]
def isCrossed (s : Simplex α) (box : Box α) : Bool :=
  (box.lower.zip box.upper).any fun (lower, upper?) =>
    upper?.any fun upper => decide (upper + s.precision.pivot < lower)

/-- Solves the relaxation with the bounds of the columns replaced by the box. -/
@[specialize]
def solveIn (s : Simplex α) (p : Problem α) (box : Box α) : Except Status (Solution α) :=
  if s.isCrossed box then .error .infeasible
  else
    match s.phaseOne (.ofProblem p box.lower box.upper) with
    | .error status => .error status
    | .ok t =>
      match s.phaseTwo p t with
      | .error status => .error status
      | .ok t =>
        let values := t.valuesFrom box.lower p.columns.length
        .ok ⟨p.objectiveAt values, values⟩

/-- Solves the relaxation of a problem. -/
@[specialize]
def solve (s : Simplex α) : Solver α := fun p =>
  s.solveIn p p.box

/-- Solves the relaxation of a problem over doubles in a box. -/
def solveDoubles (maxIterations : Nat) (p : Problem Float) (box : Box Float) :
    Except Status (Solution Float) :=
  (double maxIterations).solveIn p box

end Simplex

end WorstCase
