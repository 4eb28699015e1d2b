import WorstCase.Linear.Problem

/-!
# Simplex tableaux

A tableau is a system of equations in which each row has a basic variable, together with the
reduced costs of an objective to be maximised. The variables are the columns of a problem shifted by
their lower bounds, then one slack for each inequality, then one artificial variable for each row
that has no slack to start from. Pivoting follows the smallest index rule: the first variable with a
negative reduced cost enters, and of the rows that limit it the one with the smallest basic variable
leaves.
-/

namespace WorstCase

/-- A linear equation: the coefficients of the variables and the constant on the right. -/
structure Equation (α : Type) where
  coefficients : List α
  constant : α

/-- An equation solved for its basic variable. -/
structure TableauRow (α : Type) where
  equation : Equation α
  basic : Nat

/-- A system of equations with a basis and an objective. The coefficients of `objective` are the
reduced costs, its constant is the value of the objective at the basis. The artificial variables are
those from `artificialStart` to `width`. -/
structure Tableau (α : Type) where
  rows : List (TableauRow α)
  objective : Equation α
  width : Nat
  artificialStart : Nat

/-- A constraint over the shifted columns with every coefficient written out. -/
structure DenseRow (α : Type) where
  coefficients : List α
  comparison : Comparison
  rhs : α

variable {α : Type} [Scalar α]

namespace Equation

/-- The coefficient of a variable, counted from 0. -/
@[specialize]
def coefficient (e : Equation α) (variableIndex : Nat) : α :=
  e.coefficients.getD variableIndex 0

/-- Divides the equation by its coefficient at `column`. -/
@[specialize]
def normalise (e : Equation α) (column : Nat) : Equation α :=
  let pivot := e.coefficient column
  ⟨e.coefficients.map (· / pivot), e.constant / pivot⟩

/-- Takes away the multiple of `source` that clears `column`. What is left of an entry after
cancellation, below the square of `tiny`, is made zero. -/
@[specialize]
def eliminate (e : Equation α) (tiny : α) (source : Equation α) (column : Nat) : Equation α :=
  let factor := e.coefficient column
  if factor == 0 then e
  else
    let entry (value pivotValue : α) : α :=
      let difference := value - factor * pivotValue
      if Scalar.abs difference < tiny * tiny then 0 else difference
    ⟨List.zipWith entry e.coefficients source.coefficients, entry e.constant source.constant⟩

/-- Adds a multiple of another equation. -/
@[specialize]
def addMultiple (e : Equation α) (factor : α) (other : Equation α) : Equation α :=
  let entry (value otherValue : α) : α := value + factor * otherValue
  ⟨List.zipWith entry e.coefficients other.coefficients, entry e.constant other.constant⟩

end Equation

namespace DenseRow

/-- The row over `columns` columns, each shifted by its lower bound. -/
@[specialize]
def ofRow (columns : Nat) (lower : List α) (row : Row α) : DenseRow α :=
  let start : DenseRow α := ⟨List.replicate columns 0, row.comparison, row.rhs⟩
  row.terms.foldl
    (fun dense term =>
      { dense with
        coefficients := dense.coefficients.modify (term.1 - 1) (· + term.2)
        rhs := dense.rhs - term.2 * lower.getD (term.1 - 1) 0 })
    start

/-- The upper bounds as rows over the shifted columns. -/
@[specialize]
def ofUpper (columns : Nat) (lower : List α) (upper : List (Option α)) : List (DenseRow α) :=
  upper.zipIdx.filterMap fun (bound?, i) =>
    bound?.map fun bound =>
      ⟨(List.replicate columns 0).set i 1, .atMost, bound - lower.getD i 0⟩

/-- Negates a row with a negative right side. -/
@[specialize]
def orient (row : DenseRow α) : DenseRow α :=
  if row.rhs < 0 then ⟨row.coefficients.map (- ·), row.comparison.flip, -row.rhs⟩ else row

end DenseRow

namespace Tableau

/-- The rows of a tableau: an inequality takes the next slack, and a row that is no upper limit
takes the next artificial variable, which is then its basic one. -/
@[specialize]
def layOut (width : Nat) : List (DenseRow α) → (slack artificial : Nat) → List (TableauRow α)
  | [], _, _ => []
  | row :: rest, slack, artificial =>
    let coefficients := row.coefficients ++ List.replicate (width - row.coefficients.length) 0
    match row.comparison with
    | .atMost =>
      ⟨⟨coefficients.set slack 1, row.rhs⟩, slack⟩ :: layOut width rest (slack + 1) artificial
    | .atLeast =>
      ⟨⟨(coefficients.set slack (-1)).set artificial 1, row.rhs⟩, artificial⟩ ::
        layOut width rest (slack + 1) (artificial + 1)
    | .equal =>
      ⟨⟨coefficients.set artificial 1, row.rhs⟩, artificial⟩ ::
        layOut width rest slack (artificial + 1)

/-- The starting tableau of a problem with the given bounds, without an objective. -/
@[specialize]
def ofProblem (p : Problem α) (lower : List α) (upper : List (Option α)) : Tableau α :=
  let columns := p.columns.length
  let dense := (p.rows.map (DenseRow.ofRow columns lower) ++
    DenseRow.ofUpper columns lower upper).map DenseRow.orient
  let slacks := dense.countP (·.comparison != .equal)
  let artificials := dense.countP (·.comparison != .atMost)
  let artificialStart := columns + slacks
  let width := artificialStart + artificials
  { rows := layOut width dense columns artificialStart
    objective := ⟨List.replicate width 0, 0⟩
    width
    artificialStart }

/-- Loads the objective of maximising `costs`, where missing costs are 0, and expresses it in the
variables that are not basic. -/
@[specialize]
def loadObjective (t : Tableau α) (costs : List α) : Tableau α :=
  let start : Equation α := ⟨(List.range t.width).map fun j => -costs.getD j 0, 0⟩
  let objective := t.rows.foldl
    (fun objective row =>
      let cost := costs.getD row.basic 0
      if cost == 0 then objective else objective.addMultiple cost row.equation)
    start
  { t with objective }

/-- The objective of the first phase: the negated sum of the artificial variables. -/
@[specialize]
def loadPhaseOne (t : Tableau α) : Tableau α :=
  t.loadObjective
    (List.replicate t.artificialStart 0 ++ List.replicate (t.width - t.artificialStart) (-1))

/-- Makes `column` basic in the row with index `r`. -/
@[specialize]
def pivot (tiny : α) (t : Tableau α) (r column : Nat) : Tableau α :=
  match t.rows[r]? with
  | none => t
  | some row =>
    let source := row.equation.normalise column
    { t with
      rows := t.rows.mapIdx fun i other =>
        if i = r then ⟨source, column⟩
        else { other with equation := other.equation.eliminate tiny source column }
      objective := t.objective.eliminate tiny source column }

/-- The first variable below `allowed` whose reduced cost is negative. -/
@[specialize]
def entering? (tiny : α) (t : Tableau α) (allowed : Nat) : Option Nat :=
  (t.objective.coefficients.take allowed).findIdx? fun reduced => reduced < -tiny

/-- A row that limits the entering variable. -/
structure Limit (α : Type) where
  row : Nat
  basic : Nat
  ratio : α

/-- The tighter of two limits; of two about as tight ones, that with the smaller basic variable. -/
@[specialize]
def Limit.tighten (tiny : α) (best : Option (Limit α)) (new : Limit α) : Limit α :=
  match best with
  | none => new
  | some best =>
    if new.ratio < best.ratio - tiny ∨ (new.ratio ≤ best.ratio + tiny ∧ new.basic < best.basic) then
      new
    else best

/-- The row that leaves the basis when `column` enters it. -/
@[specialize]
def leaving? (tiny : α) (t : Tableau α) (column : Nat) : Option Nat :=
  let best := t.rows.zipIdx.foldl
    (fun best (row, i) =>
      let coefficient := row.equation.coefficient column
      if coefficient ≤ tiny then best
      else some (Limit.tighten tiny best ⟨i, row.basic, row.equation.constant / coefficient⟩))
    none
  best.map (·.row)

/-- Pivots until no variable below `allowed` improves the objective, at most `iterations` times. -/
@[specialize]
def iterate (tiny : α) (allowed : Nat) : Nat → Tableau α → Except Status (Tableau α)
  | 0, _ => .error .numericalFailure
  | iterations + 1, t =>
    match t.entering? tiny allowed with
    | none => .ok t
    | some column =>
      match t.leaving? tiny column with
      | none => .error .unbounded
      | some r => iterate tiny allowed iterations (t.pivot tiny r column)

/-- Pivots a real variable into row `r` when its basic variable is artificial and the row has a real
variable left. A row without one is redundant. -/
@[specialize]
def driveOutRow (tiny : α) (t : Tableau α) (r : Nat) : Tableau α :=
  match t.rows[r]? with
  | none => t
  | some row =>
    if row.basic < t.artificialStart then t
    else
      let real := row.equation.coefficients.take t.artificialStart
      match real.findIdx? fun x => tiny < Scalar.abs x with
      | none => t
      | some column => t.pivot tiny r column

/-- Replaces the artificial variables that are still basic by real ones where possible. -/
@[specialize]
def driveOutArtificials (tiny : α) (t : Tableau α) : Tableau α :=
  (List.range t.rows.length).foldl (driveOutRow tiny) t

/-- The values of the first variables at the basis, each added to its lower bound. -/
@[specialize]
def valuesFrom (t : Tableau α) (lower : List α) (columns : Nat) : List α :=
  t.rows.foldl
    (fun values row =>
      if row.basic < columns then values.modify row.basic (· + row.equation.constant) else values)
    lower

end Tableau

end WorstCase
