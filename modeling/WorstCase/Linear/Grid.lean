import WorstCase.Action
import WorstCase.Linear.Simplex

/-!
# Tableaux as grids

The simplex method on a tableau that is kept as a grid of numbers. A row is one list, with the
constant behind the coefficients, and the basic variables stand in a list of their own. What is
needed of a list is looked up at a place, and a place that the list does not have stops the
computation.
-/

namespace WorstCase

/-- A tableau as a grid. Each row has an entry for each variable and then its constant, and so has
the objective. -/
structure Grid (α : Type) where
  rows : List (List α)
  objective : List α
  /-- The basic variables of the rows. -/
  basic : List Nat
  width : Nat
  artificialStart : Nat

namespace Grid

/-- Why a computation on a grid stops: the method has no solution to give, or a place is empty. -/
abbrev Stop := WorstCase.Stop Status

/-! ## Places -/

section Places

variable {β : Type}

/-- The list with what stands at a place changed. -/
def changeAt (xs : List β) (place : Nat) (f : β → β) : Except Stop (List β) :=
  if place < xs.length then .ok (xs.modify place f) else .error .outOfRange

/-- The list with something else at a place. -/
def putAt (xs : List β) (place : Nat) (x : β) : Except Stop (List β) :=
  changeAt xs place fun _ => x

/-- The list cut or filled up to a length. -/
def resize (xs : List β) (length : Nat) (x : β) : List β :=
  xs.take length ++ List.replicate (length - xs.length) x

/-- Changes each entry that has a partner in the other list. -/
@[specialize]
def merge (f : β → β → β) : List β → List β → List β
  | x :: xs, y :: ys => f x y :: merge f xs ys
  | xs, _ => xs

/-- The place of a column, whose numbers count from 1. -/
def placeOf (column : Nat) : Except Stop Nat :=
  if column = 0 then .error .outOfRange else .ok (column - 1)

end Places

variable {α : Type} [Scalar α]

/-! ## The starting grid -/

/-- Adds a term to a constraint over the shifted columns. -/
@[specialize]
def addTerm (lower : List α) (dense : DenseRow α) (term : Nat × α) : Except Stop (DenseRow α) := do
  let place ← placeOf term.1
  let coefficients ← changeAt dense.coefficients place (· + term.2)
  let shift ← atPlace lower place
  return { dense with coefficients, rhs := dense.rhs - term.2 * shift }

@[specialize]
def rowConstraint (columns : Nat) (lower : List α) (row : Row α) : Except Stop (DenseRow α) :=
  row.terms.foldlM (addTerm lower) ⟨List.replicate columns 0, row.comparison, row.rhs⟩

/-- The constraint of an upper bound, given with the place of its column. -/
@[specialize]
def upperConstraint (columns : Nat) (lower : List α) (bound : α × Nat) :
    Except Stop (DenseRow α) := do
  let coefficients ← putAt (List.replicate columns 0) bound.2 1
  let shift ← atPlace lower bound.2
  return ⟨coefficients, .atMost, bound.1 - shift⟩

/-- The rows and the upper bounds of a problem over the shifted columns, none with a negative right
side. -/
@[specialize]
def constraints (p : Problem α) (box : Box α) : Except Stop (List (DenseRow α)) := do
  let columns := p.columns.length
  let bounds := box.upper.zipIdx.filterMap fun (bound?, i) => bound?.map (·, i)
  let rows ← p.rows.mapM (rowConstraint columns box.lower)
  let uppers ← bounds.mapM (upperConstraint columns box.lower)
  return (rows ++ uppers).map DenseRow.orient

/-- A row of the grid and its basic variable, given the next slack and the next artificial
variable. -/
@[specialize]
def layOutRow (width slack artificial : Nat) (row : DenseRow α) : Except Stop (List α × Nat) := do
  let entries ← putAt (resize row.coefficients (width + 1) 0) width row.rhs
  match row.comparison with
  | .atMost => return (← putAt entries slack 1, slack)
  | .atLeast => return (← putAt (← putAt entries slack (-1)) artificial 1, artificial)
  | .equal => return (← putAt entries artificial 1, artificial)

@[specialize]
def layOut (width : Nat) :
    List (DenseRow α) → (slack artificial : Nat) → Except Stop (List (List α × Nat))
  | [], _, _ => return []
  | row :: rest, slack, artificial => do
    let first ← layOutRow width slack artificial row
    let later ← layOut width rest (if row.comparison = .equal then slack else slack + 1)
      (if row.comparison = .atMost then artificial else artificial + 1)
    return first :: later

/-- The starting grid of a problem in a box, without an objective. -/
@[specialize]
def ofProblem (p : Problem α) (box : Box α) : Except Stop (Grid α) := do
  let constraints ← constraints p box
  let columns := p.columns.length
  let artificialStart := columns + constraints.countP (·.comparison != .equal)
  let width := artificialStart + constraints.countP (·.comparison != .atMost)
  let laid ← layOut width constraints columns artificialStart
  return { rows := laid.map (·.1)
           objective := List.replicate (width + 1) 0
           basic := laid.map (·.2)
           width
           artificialStart }

/-! ## Objectives -/

/-- The value of the objective at the basis. -/
def objectiveValue (g : Grid α) : Except Stop α :=
  atPlace g.objective g.width

/-- Adds to the objective the multiple of a row that clears its basic variable. -/
@[specialize]
def addCost (costs : List α) (objective : List α) (row : List α × Nat) : List α :=
  let cost := costs.getD row.2 0
  if cost == 0 then objective
  else merge (fun reduced value => reduced + cost * value) objective row.1

/-- Loads the objective of maximising `costs`, where missing costs are 0, and expresses it in the
variables that are not basic. -/
@[specialize]
def loadObjective (g : Grid α) (costs : List α) : Grid α :=
  let start := (List.range (g.width + 1)).map fun j => if j < g.width then -costs.getD j 0 else 0
  { g with objective := (g.rows.zip g.basic).foldl (addCost costs) start }

/-- The objective of the first phase: the negated sum of the artificial variables, which have to
start inside the grid. -/
@[specialize]
def loadPhaseOne (g : Grid α) : Except Stop (Grid α) :=
  if g.artificialStart ≤ g.width then
    .ok (g.loadObjective
      (List.replicate g.artificialStart 0 ++ List.replicate (g.width - g.artificialStart) (-1)))
  else .error .outOfRange

/-! ## Pivoting -/

/-- Takes away from a row the multiple of `source` that clears `column`. -/
@[specialize]
def eliminate (tiny : α) (source : List α) (column : Nat) (target : List α) :
    Except Stop (List α) := do
  let factor ← atPlace target column
  if factor == 0 then return target
  else
    let entry (value pivotValue : α) : α :=
      let difference := value - factor * pivotValue
      if Scalar.abs difference < tiny * tiny then 0 else difference
    return merge entry target source

/-- What a pivot in row `r` makes of a row, given with its index. -/
@[specialize]
def clear (tiny : α) (source : List α) (r column : Nat) (row : List α × Nat) :
    Except Stop (List α) :=
  if row.2 = r then .ok source else eliminate tiny source column row.1

/-- Makes `column` basic in the row with index `r`. -/
@[specialize]
def pivot (tiny : α) (g : Grid α) (r column : Nat) : Except Stop (Grid α) := do
  let row ← atPlace g.rows r
  let entry ← atPlace row column
  let source := row.map (· / entry)
  let rows ← g.rows.zipIdx.mapM (clear tiny source r column)
  let objective ← eliminate tiny source column g.objective
  let basic ← putAt g.basic r column
  return { g with rows, objective, basic }

/-- The first variable below `allowed` whose reduced cost is negative. -/
@[specialize]
def entering? (tiny : α) (g : Grid α) (allowed : Nat) : Except Stop (Option Nat) :=
  (List.range allowed).findM? fun column => do
    let reduced ← atPlace g.objective column
    return decide (reduced < -tiny)

/-- The tighter one of the best limit so far, an index with its ratio, and that of a row, given with
its index. -/
@[specialize]
def limit (tiny : α) (g : Grid α) (column : Nat) (best : Option (Nat × α)) (row : List α × Nat) :
    Except Stop (Option (Nat × α)) := do
  let coefficient ← atPlace row.1 column
  if coefficient ≤ tiny then return best
  else
    let constant ← atPlace row.1 g.width
    let ratio := constant / coefficient
    match best with
    | none => return some (row.2, ratio)
    | some (bestRow, bestRatio) =>
      if ratio < bestRatio - tiny then return some (row.2, ratio)
      else if ratio ≤ bestRatio + tiny then
        -- the basic variables are looked up only to decide between two about as tight limits
        let basic ← atPlace g.basic row.2
        let bestBasic ← atPlace g.basic bestRow
        return if basic < bestBasic then some (row.2, ratio) else best
      else return best

/-- The row that leaves the basis when `column` enters it. -/
@[specialize]
def leaving? (tiny : α) (g : Grid α) (column : Nat) : Except Stop (Option Nat) := do
  let best ← g.rows.zipIdx.foldlM (limit tiny g column) none
  return best.map (·.1)

/-- Pivots until no variable below `allowed` improves the objective, at most `iterations` times. -/
@[specialize]
def iterate (tiny : α) (allowed : Nat) : Nat → Grid α → Except Stop (Grid α)
  | 0, _ => .error (.because .numericalFailure)
  | iterations + 1, g => do
    match ← g.entering? tiny allowed with
    | none => return g
    | some column =>
      match ← g.leaving? tiny column with
      | none => .error (.because .unbounded)
      | some r =>
        let g ← g.pivot tiny r column
        iterate tiny allowed iterations g

/-- Pivots a real variable into row `r` when its basic variable is artificial and the row has a real
variable left. -/
@[specialize]
def driveOutRow (tiny : α) (g : Grid α) (r : Nat) : Except Stop (Grid α) := do
  let basic ← atPlace g.basic r
  if basic < g.artificialStart then return g
  else
    let column? ← (List.range g.artificialStart).findM? fun column => do
      let row ← atPlace g.rows r
      let entry ← atPlace row column
      return decide (tiny < Scalar.abs entry)
    match column? with
    | none => return g
    | some column => g.pivot tiny r column

/-- Replaces the artificial variables that are still basic by real ones where possible. -/
@[specialize]
def driveOutArtificials (tiny : α) (g : Grid α) : Except Stop (Grid α) :=
  (List.range g.rows.length).foldlM (driveOutRow tiny) g

/-! ## The method -/

@[specialize]
def phaseOne (s : Simplex α) (g : Grid α) : Except Stop (Grid α) :=
  if g.artificialStart < g.width then do
    let g ← g.loadPhaseOne
    match g.iterate s.precision.pivot g.width s.maxIterations with
    | .error (.because .unbounded) => .error (.because .numericalFailure)
    | .error stop => .error stop
    | .ok g =>
      let value ← g.objectiveValue
      if value < -s.precision.feasibility then .error (.because .infeasible)
      else g.driveOutArtificials s.precision.pivot
  else .ok g

@[specialize]
def phaseTwo (s : Simplex α) (p : Problem α) (g : Grid α) : Except Stop (Grid α) :=
  let costs := p.columns.map fun column => p.direction.sense * column.objective
  (g.loadObjective costs).iterate s.precision.pivot g.artificialStart s.maxIterations

/-- Adds the value of a basic variable, given with the index of its row, if it is one of the
first. -/
@[specialize]
def addValue (g : Grid α) (columns : Nat) (values : List α) (basic : Nat × Nat) :
    Except Stop (List α) :=
  if basic.1 < columns then do
    let row ← atPlace g.rows basic.2
    let value ← atPlace row g.width
    changeAt values basic.1 (· + value)
  else .ok values

/-- The values of the first variables at the basis, each added to its lower bound. -/
@[specialize]
def valuesFrom (g : Grid α) (lower : List α) (columns : Nat) : Except Stop (List α) :=
  g.basic.zipIdx.foldlM (addValue g columns) lower

/-- Solves the relaxation with the bounds of the columns replaced by the box. -/
@[specialize]
def solveIn (s : Simplex α) (p : Problem α) (box : Box α) : Except Stop (Solution α) :=
  if s.isCrossed box then .error (.because .infeasible)
  else do
    let g ← ofProblem p box
    let g ← g.phaseOne s
    let g ← g.phaseTwo s p
    let values ← g.valuesFrom box.lower p.columns.length
    return ⟨p.objectiveAt values, values⟩

/-- Solves the relaxation of a problem over doubles in a box. -/
def solveDoubles (maxIterations : Nat) (p : Problem Float) (box : Box Float) :
    Except Stop (Solution Float) :=
  solveIn (.double maxIterations) p box

end Grid

end WorstCase
