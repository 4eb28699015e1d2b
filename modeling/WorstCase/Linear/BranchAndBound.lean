import WorstCase.Linear.Simplex

/-!
# Branch and bound

Finds whole values by splitting boxes. A box whose relaxation has a fractional value in a column
that has to be whole is split at that value, and the upper part is searched first. A box is dropped
when its relaxation is infeasible or no better than the best whole solution so far. How relaxations
are solved is a parameter.
-/

namespace WorstCase

/-- Solves the relaxation of a problem with bounds replaced by a box. -/
abbrev Relaxation (α : Type) := Problem α → Box α → Except Status (Solution α)

/-- The limits of a search. A time budget of zero has run out before the first box is looked at;
with any other budget the search is taken to finish in time. -/
structure SearchLimits where
  maxNodes : Nat
  timeoutMillis : Option Nat
deriving DecidableEq, Repr

namespace SearchLimits

/-- The limit on boxes when none is asked for. -/
def defaultNodes : Nat := 100000

def unlimitedTime : SearchLimits := ⟨defaultNodes, none⟩

/-- Whether there is no time at all. -/
def isExpired (limits : SearchLimits) : Bool :=
  limits.timeoutMillis == some 0

end SearchLimits

namespace Box

variable {α : Type}

/-- The part of the box where column `i`, counted from 0, is at most `value`. -/
def below (box : Box α) (i : Nat) (value : α) : Box α :=
  { box with upper := box.upper.set i (some value) }

/-- The part of the box where column `i`, counted from 0, is at least `value`. -/
def above (box : Box α) (i : Nat) (value : α) : Box α :=
  { box with lower := box.lower.set i value }

end Box

namespace BranchAndBound

variable {α : Type} [Scalar α]

/-- The first column, counted from 0, that has to be whole and is not, and its value. -/
@[specialize]
def fractional? (slack : α) (p : Problem α) (values : List α) : Option (Nat × α) :=
  (p.columns.zip values).zipIdx.findSome? fun ((column, value), i) =>
    if column.integer && decide (slack < Scalar.abs (value - Scalar.round value)) then
      some (i, value)
    else none

/-- The solution with the values of integer columns made whole. -/
@[specialize]
def settle (p : Problem α) (values : List α) : Solution α :=
  let values := List.zipWith
    (fun column value => if column.integer then Scalar.round value else value) p.columns values
  ⟨p.objectiveAt values, values⟩

/-- Whether a relaxation promises nothing better than the best solution so far. -/
@[specialize]
def isHopeless (slack : α) (p : Problem α) (best : Option (Solution α)) (relaxed : Solution α) :
    Bool :=
  let sense : α := p.direction.sense
  best.any fun best => decide (sense * relaxed.objective ≤ sense * best.objective + slack)

/-- Searches a stack of boxes, looking at no more than the given number of them. -/
@[specialize]
def explore (slack : α) (relax : Box α → Except Status (Solution α)) (p : Problem α) :
    Nat → List (Box α) → Option (Solution α) → Except Status (Solution α)
  | _, [], none => .error .infeasible
  | _, [], some best => .ok best
  | 0, _ :: _, _ => .error .nodeLimit
  | nodes + 1, box :: stack, best =>
    match relax box with
    | .error .infeasible => explore slack relax p nodes stack best
    | .error status => .error status
    | .ok relaxed =>
      if isHopeless slack p best relaxed then explore slack relax p nodes stack best
      else
        match fractional? slack p relaxed.values with
        | some (i, value) =>
          let up := box.above i (Scalar.ceil value)
          let down := box.below i (Scalar.floor value)
          explore slack relax p nodes (up :: down :: stack) best
        | none => explore slack relax p nodes stack (some (settle p relaxed.values))

/-- Branch and bound over any way to solve relaxations. -/
@[specialize]
def solveWith (slack : α) (limits : SearchLimits) (relax : Relaxation α) : Solver α := fun p =>
  if limits.isExpired then .error .timeout
  else explore slack (relax p) p limits.maxNodes [p.box] none

/-- Branch and bound over the simplex method. -/
@[specialize]
def solve (simplex : Simplex α) (limits : SearchLimits) : Solver α :=
  solveWith simplex.precision.slack limits simplex.solveIn

/-- Branch and bound on doubles, with a limit on the pivots of each phase of a relaxation. -/
def solveDoubles (maxIterations : Nat) (limits : SearchLimits) : Solver Float :=
  solveWith Precision.double.slack limits (Simplex.solveDoubles maxIterations)

end BranchAndBound

end WorstCase
