import WorstCase.Number.Scalar

/-!
# Precision

How close two scalars have to be for the solvers to take them as equal. Doubles need some room;
exact arithmetic needs none.
-/

namespace WorstCase

/-- The room that the solvers leave for rounding. -/
structure Precision (α : Type) where
  /-- Tableau entries and reduced costs up to this size count as zero. -/
  pivot : α
  /-- The sum of the artificial variables may stay this large in a feasible problem. -/
  feasibility : α
  /-- Rows, bounds and whole values may be missed by this much. -/
  slack : α

namespace Precision

/-- The room for doubles. -/
def double : Precision Float where
  pivot := 1e-9
  feasibility := 1e-7
  slack := 1e-6

/-- No room at all. -/
def exact {α : Type} [Scalar α] : Precision α where
  pivot := 0
  feasibility := 0
  slack := 0

end Precision

end WorstCase
