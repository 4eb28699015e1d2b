import WorstCase.Action
import WorstCase.Linear.Problem

/-!
# Problems changed in place

A problem as it is kept while it is made. A change looks at the problem, checks the request and then
writes to the problem, one step after the other: a change that stops half-way leaves behind what it
has written so far.
-/

namespace WorstCase.Problem

/-- A computation that reads a problem and changes it in place. -/
abbrev Action (α β : Type) := WorstCase.Action (ProblemError α) (Problem α) β

namespace InPlace

variable {α : Type}

/-- The column with number `c`, counted from 1. -/
def read (c : Nat) : Action α (Column α) := do
  let p ← get
  p.column c

/-- Puts a column in the place of the one with number `c`. -/
def write (c : Nat) (column : Column α) : Action α Unit :=
  modify fun p => { p with columns := p.columns.set (c - 1) column }

def setDirection (direction : Direction) : Action α Unit :=
  modify fun p => { p with direction }

def setObjective (c : Nat) (coefficient : α) : Action α Unit := do
  let column ← read c
  write c { column with objective := coefficient }

def setInteger (c : Nat) (integer : Bool) : Action α Unit := do
  let column ← read c
  write c { column with integer }

/-- Adds a row after a look at the column of each term. -/
def addRow (row : Row α) : Action α Unit := do
  forM row.terms fun term => do
    let _ ← read term.1
  modify fun p => { p with rows := p.rows ++ [row] }

variable [Scalar α]

/-- Adds a column that is not negative, has no upper bound and does not count in the objective, and
gives its number. -/
def addColumn (name : String) (integer : Bool) : Action α Nat := do
  modify fun p => { p with columns := p.columns ++ [⟨name, 0, none, integer, 0⟩] }
  let p ← get
  return p.columns.length

def setUpper (c : Nat) (upper : α) : Action α Unit := do
  let column ← read c
  if upper < column.lower then throw (.crossedBounds c column.lower upper)
  write c { column with upper := some upper }

def setLower (c : Nat) (lower : α) : Action α Unit := do
  let column ← read c
  if let some upper := column.upper then
    if upper < lower then throw (.crossedBounds c lower upper)
  write c { column with lower }

end InPlace

end WorstCase.Problem
