import WorstCase.Number.Precision

/-!
# Integer linear programs

A problem has bounded columns (its variables, numbered from 1), rows (linear constraints over the
columns) and a linear objective. Each change of a problem either gives the changed problem or says
what is wrong with the request.
-/

namespace WorstCase

/-- The sum from left to right. It starts at minus zero, which is neutral even where zeros are
signed: the sum of nothing is minus zero. -/
@[specialize]
def Scalar.sum {α : Type} [Scalar α] (xs : List α) : α :=
  xs.foldl (· + ·) (-0)

/-- Whether the objective is to be made large or small. -/
inductive Direction
  | maximise
  | minimise
deriving DecidableEq, Repr

/-- The factor that turns the direction into maximising. -/
@[specialize]
def Direction.sense {α : Type} [Scalar α] : Direction → α
  | .maximise => 1
  | .minimise => -1

/-- How the left side of a row compares with its right side. -/
inductive Comparison
  | atMost
  | equal
  | atLeast
deriving DecidableEq, Repr

namespace Comparison

/-- The comparison that holds after both sides are multiplied by -1. -/
def flip : Comparison → Comparison
  | .atMost => .atLeast
  | .equal => .equal
  | .atLeast => .atMost

def symbol : Comparison → String
  | .atMost => "<="
  | .equal => "="
  | .atLeast => ">="

/-- Whether the comparison holds up to `slack`. -/
def holds {α : Type} [Scalar α] (slack : α) (c : Comparison) (left right : α) : Bool :=
  match c with
  | .atMost => left ≤ right + slack
  | .equal => Scalar.abs (left - right) ≤ slack
  | .atLeast => right ≤ left + slack

end Comparison

/-- What a row expresses. Rows of one group stand together in a listing. -/
inductive RowGroup
  | flow
  | loop
  | capacity
  | other
deriving DecidableEq, Repr

/-- The heading of the group in a listing. -/
def RowGroup.title : RowGroup → String
  | .flow => "Flow constraints"
  | .loop => "Loop constraints"
  | .capacity => "Capacity constraints"
  | .other => "Other constraints"

/-- A variable of a problem, with its coefficient in the objective. -/
structure Column (α : Type) where
  name : String
  lower : α
  upper : Option α
  integer : Bool
  objective : α
deriving BEq

/-- Whether `value` keeps the bounds of the column and is whole if it has to be, up to `slack`. -/
def Column.admits {α : Type} [Scalar α] (slack : α) (column : Column α) (value : α) : Bool :=
  decide (column.lower ≤ value + slack) &&
    column.upper.all (fun upper => decide (value ≤ upper + slack)) &&
    (!column.integer || decide (Scalar.abs (value - Scalar.round value) ≤ slack))

/-- A linear constraint. A column may occur in several terms; its coefficients add up. -/
structure Row (α : Type) where
  terms : List (Nat × α)
  comparison : Comparison
  rhs : α
  group : RowGroup
  comment : Option String
deriving BEq

/-- The value of column `c` in `values`, whose first entry belongs to column 1. -/
def valueAt? {α : Type} (values : List α) (c : Nat) : Option α :=
  if c = 0 then none else values[c - 1]?

/-- The left side of the row at `values`. A column without a value counts as zero. -/
def Row.activity {α : Type} [Scalar α] (row : Row α) (values : List α) : α :=
  Scalar.sum (row.terms.map fun term => term.2 * (valueAt? values term.1).getD 0)

/-- Why a problem refuses a change. -/
inductive ProblemError (α : Type)
  | unknownColumn (column : Nat)
  | crossedBounds (column : Nat) (lower upper : α)

def ProblemError.message {α : Type} [Numeral α] : ProblemError α → String
  | .unknownColumn c => s!"No column {c} in the problem"
  | .crossedBounds c lower upper =>
    let low := String.ofList (Numeral.text lower)
    let high := String.ofList (Numeral.text upper)
    s!"Column {c} has lower bound {low} above upper bound {high}"

/-- An integer linear program. -/
structure Problem (α : Type) where
  name : String
  direction : Direction
  columns : List (Column α)
  rows : List (Row α)

namespace Problem

variable {α : Type}

/-- The problem without columns and rows. -/
def empty (name : String) (direction : Direction) : Problem α :=
  ⟨name, direction, [], []⟩

/-- The column with number `c`, counted from 1. -/
def column? (p : Problem α) (c : Nat) : Option (Column α) :=
  if c = 0 then none else p.columns[c - 1]?

/-- The column with number `c`, or the complaint that there is none. -/
def column (p : Problem α) (c : Nat) : Except (ProblemError α) (Column α) :=
  match p.column? c with
  | some column => .ok column
  | none => .error (.unknownColumn c)

/-- The number of the first column with this name. -/
def columnNamed? (p : Problem α) (name : String) : Option Nat :=
  (p.columns.findIdx? (·.name == name)).map (· + 1)

/-- Replaces column `c` by what `f` makes of it. -/
def edit (p : Problem α) (c : Nat) (f : Column α → Except (ProblemError α) (Column α)) :
    Except (ProblemError α) (Problem α) :=
  match p.column? c with
  | none => .error (.unknownColumn c)
  | some column =>
    match f column with
    | .error e => .error e
    | .ok column => .ok { p with columns := p.columns.set (c - 1) column }

def setDirection (p : Problem α) (direction : Direction) : Problem α :=
  { p with direction }

def setObjective (p : Problem α) (c : Nat) (coefficient : α) :
    Except (ProblemError α) (Problem α) :=
  p.edit c fun column => .ok { column with objective := coefficient }

def setInteger (p : Problem α) (c : Nat) (integer : Bool) : Except (ProblemError α) (Problem α) :=
  p.edit c fun column => .ok { column with integer }

/-- Adds a row, all of whose columns have to be there. -/
def addRow (p : Problem α) (row : Row α) : Except (ProblemError α) (Problem α) :=
  match row.terms.find? fun term => (p.column? term.1).isNone with
  | some term => .error (.unknownColumn term.1)
  | none => .ok { p with rows := p.rows ++ [row] }

variable [Scalar α]

/-- Adds a column that is not negative, has no upper bound and does not count in the objective. Its
number is the number of columns after the change. -/
def addColumn (p : Problem α) (name : String) (integer : Bool) : Problem α :=
  { p with columns := p.columns ++ [⟨name, 0, none, integer, 0⟩] }

def setUpper (p : Problem α) (c : Nat) (upper : α) : Except (ProblemError α) (Problem α) :=
  p.edit c fun column =>
    if upper < column.lower then .error (.crossedBounds c column.lower upper)
    else .ok { column with upper := some upper }

def setLower (p : Problem α) (c : Nat) (lower : α) : Except (ProblemError α) (Problem α) :=
  p.edit c fun column =>
    match column.upper with
    | some upper =>
      if upper < lower then .error (.crossedBounds c lower upper)
      else .ok { column with lower }
    | none => .ok { column with lower }

/-- The objective at `values`, whose first entry belongs to column 1. -/
@[specialize]
def objectiveAt (p : Problem α) (values : List α) : α :=
  Scalar.sum (List.zipWith (fun column value => column.objective * value) p.columns values)

/-- Whether there is a value for each column and all bounds, rows and demands for whole values are
met up to `slack`. -/
def isSatisfiedBy (slack : α) (p : Problem α) (values : List α) : Bool :=
  values.length == p.columns.length &&
    (p.columns.zip values).all (fun (column, value) => column.admits slack value) &&
    p.rows.all fun row => row.comparison.holds slack (row.activity values) row.rhs

end Problem

/-- Why no optimum was found. -/
inductive Status
  | infeasible
  | unbounded
  | numericalFailure
  | nodeLimit
  | timeout
deriving DecidableEq, Repr

def Status.message : Status → String
  | .infeasible => "the problem is infeasible"
  | .unbounded => "the problem is unbounded"
  | .numericalFailure => "numerical failure"
  | .nodeLimit => "branch and bound node limit reached"
  | .timeout => "solve timed out"

/-- An assignment and its objective. The first value belongs to column 1. -/
structure Solution (α : Type) where
  objective : α
  values : List α
deriving DecidableEq

/-- The value of column `c`, counted from 1. -/
def Solution.value? {α : Type} (s : Solution α) (c : Nat) : Option α :=
  valueAt? s.values c

/-- A solver finds an optimal assignment or says why it has none. -/
abbrev Solver (α : Type) := Problem α → Except Status (Solution α)

end WorstCase
