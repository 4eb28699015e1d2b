import Mathlib.Algebra.Order.BigOperators.Group.List
import Mathlib.Algebra.Order.Field.Rat
import Mathlib.Data.Rat.Floor
import Mathlib.Tactic.Linarith
import WorstCase.Linear.Problem

/-!
# Problems in exact arithmetic

A problem in any scalars is read as a problem in rationals by reading each of its numbers
(`Problem.read`). Over the rationals the checks say what they are meant to say: sums are sums
(`Scalar.sum_eq_sum`), a row compares its two sides (`holds_zero_iff`), and an assignment satisfies
a problem when it keeps all bounds and rows and is whole where it has to be (`isSatisfiedBy_iff`).
-/

namespace WorstCase

/-! ## Reading numbers as rationals -/

section read

variable {α : Type}

def Column.read (value : α → ℚ) (c : Column α) : Column ℚ :=
  ⟨c.name, value c.lower, c.upper.map value, c.integer, value c.objective⟩

def Row.read (value : α → ℚ) (r : Row α) : Row ℚ :=
  ⟨r.terms.map fun term => (term.1, value term.2), r.comparison, value r.rhs, r.group, r.comment⟩

/-- The problem with every number replaced by the rational that `value` reads it as. -/
def Problem.read (value : α → ℚ) (p : Problem α) : Problem ℚ :=
  ⟨p.name, p.direction, p.columns.map (Column.read value), p.rows.map (Row.read value)⟩

end read

/-! ## What the checks mean -/

theorem Scalar.sum_eq_sum (xs : List ℚ) : Scalar.sum xs = xs.sum := by
  have hfold : ∀ (ys : List ℚ) (a : ℚ), ys.foldl (· + ·) a = a + ys.sum := by
    intro ys
    induction ys with
    | nil => intro a; simp
    | cons y ys ih => intro a; rw [List.foldl_cons, ih, List.sum_cons, add_assoc]
  have hsum : Scalar.sum xs = xs.foldl (· + ·) (-((0 : ℕ) : ℚ)) := rfl
  rw [hsum, hfold, Nat.cast_zero, neg_zero, zero_add]

/-- The relation that a comparison stands for. -/
def Comparison.Rel : Comparison → ℚ → ℚ → Prop
  | .atMost, left, right => left ≤ right
  | .equal, left, right => left = right
  | .atLeast, left, right => right ≤ left

theorem Scalar.abs_eq (x : ℚ) : Scalar.abs x = |x| := by
  have habs : Scalar.abs x = if x < 0 then -x else x := rfl
  rw [habs]
  split
  · next h => exact (abs_of_neg h).symm
  · next h => exact (abs_of_nonneg (not_lt.1 h)).symm

theorem Scalar.abs_le_zero_iff (x : ℚ) : Scalar.le (Scalar.abs x) ((0 : ℕ) : ℚ) ↔ x = 0 := by
  have hle : Scalar.le (Scalar.abs x) ((0 : ℕ) : ℚ) ↔ Scalar.abs x ≤ 0 := by
    rw [Nat.cast_zero]
    rfl
  rw [hle, abs_eq, abs_nonpos_iff]

/-- Without a tolerance, a comparison holds if it is true. -/
theorem Comparison.holds_zero_iff (c : Comparison) (left right : ℚ) :
    c.holds 0 left right ↔ c.Rel left right := by
  have hzero : ∀ x : ℚ, x + ((0 : ℕ) : ℚ) = x := fun x => by rw [Nat.cast_zero, add_zero]
  cases c with
  | atMost =>
    have hb : holds 0 .atMost left right = decide (left ≤ right + ((0 : ℕ) : ℚ)) := rfl
    rw [hb, hzero, decide_eq_true_iff]
    rfl
  | equal =>
    have hb : holds 0 .equal left right ↔ Scalar.le (Scalar.abs (left - right)) ((0 : ℕ) : ℚ) :=
      decide_eq_true_iff
    rw [hb, Scalar.abs_le_zero_iff, sub_eq_zero]
    rfl
  | atLeast =>
    have hb : holds 0 .atLeast left right = decide (right ≤ left + ((0 : ℕ) : ℚ)) := rfl
    rw [hb, hzero, decide_eq_true_iff]
    rfl

/-- The activity of a row is the sum of its terms. A column without a value counts as zero. -/
theorem Row.activity_eq_sum (row : Row ℚ) (values : List ℚ) :
    row.activity values =
      (row.terms.map fun term => term.2 * (valueAt? values term.1).getD 0).sum := by
  rw [activity, Scalar.sum_eq_sum]

/-- A column takes values within its bounds, up to the slack, that are whole if they have to be, up
to the slack again. -/
theorem Column.admits_iff {slack : ℚ} (c : Column ℚ) (v : ℚ) : c.admits slack v ↔
    (c.lower ≤ v + slack ∧ ∀ u, c.upper = some u → v ≤ u + slack) ∧
      (c.integer → |v - Scalar.round v| ≤ slack) := by
  have hb : c.admits slack v = (decide (c.lower ≤ v + slack) &&
      c.upper.all (fun u => decide (v ≤ u + slack)) &&
      (!c.integer || decide (Scalar.abs (v - Scalar.round v) ≤ slack))) := rfl
  rw [hb, Scalar.abs_eq]
  simp only [Bool.and_eq_true, Bool.or_eq_true, Bool.not_eq_true', decide_eq_true_iff]
  cases hu : c.upper <;> cases hi : c.integer <;> simp

theorem Column.admits_zero_iff (c : Column ℚ) (v : ℚ) : c.admits 0 v ↔
    (c.lower ≤ v ∧ ∀ u, c.upper = some u → v ≤ u) ∧ (c.integer → v = Scalar.round v) := by
  simp only [admits_iff, add_zero, abs_nonpos_iff, sub_eq_zero]

namespace Problem

/-- The values keep the bounds of all columns and satisfy all rows; they need not be whole. -/
structure Feasible (p : Problem ℚ) (values : List ℚ) : Prop where
  length_eq : values.length = p.columns.length
  bounds : ∀ q ∈ p.columns.zip values, q.1.lower ≤ q.2 ∧ ∀ u, q.1.upper = some u → q.2 ≤ u
  rows : ∀ row ∈ p.rows, row.comparison.holds 0 (row.activity values) row.rhs

/-- Without a tolerance, the check accepts the feasible values that are whole where they have to
be. -/
theorem isSatisfiedBy_iff {p : Problem ℚ} {values : List ℚ} : p.isSatisfiedBy 0 values ↔
    p.Feasible values ∧ ∀ q ∈ p.columns.zip values, q.1.integer → q.2 = Scalar.round q.2 := by
  simp only [isSatisfiedBy, Bool.and_eq_true, beq_iff_eq, List.all_eq_true, Column.admits_zero_iff]
  constructor
  · rintro ⟨⟨hlen, hcol⟩, hrow⟩
    exact ⟨⟨hlen, fun q hq => (hcol q hq).1, hrow⟩, fun q hq => (hcol q hq).2⟩
  · rintro ⟨⟨hlen, hcol, hrow⟩, hint⟩
    exact ⟨⟨hlen, fun q hq => ⟨hcol q hq, hint q hq⟩⟩, hrow⟩

theorem objectiveAt_eq_sum (p : Problem ℚ) (values : List ℚ) : p.objectiveAt values =
    (List.zipWith (fun column value => column.objective * value) p.columns values).sum := by
  rw [objectiveAt, Scalar.sum_eq_sum]

end Problem

/-- A whole number is its own nearest whole number. -/
theorem Scalar.round_intCast (k : ℤ) : Scalar.round (k : ℚ) = k := by
  have hround : Scalar.round (k : ℚ) = ((Rational.nearest k : ℤ) : ℚ) := rfl
  rw [hround, Rational.nearest]
  split
  · have hceil : ((k : ℚ) - 1 / 2).ceil = k := by
      refine le_antisymm (Rat.ceil_le_iff.2 (by linarith)) (Int.le_of_sub_one_lt ?_)
      rw [Rat.lt_ceil_iff]
      push_cast
      linarith
    rw [hceil]
  · have hfloor : ((k : ℚ) + 1 / 2).floor = k := by
      refine (Int.floor_eq_iff (a := (k : ℚ) + 1 / 2)).2 ⟨?_, ?_⟩ <;> linarith
    rw [hfloor]

theorem Scalar.round_natCast (k : ℕ) : Scalar.round (k : ℚ) = k :=
  round_intCast k

theorem Scalar.round_round (v : ℚ) : Scalar.round (Scalar.round v) = Scalar.round v :=
  round_intCast (Rational.nearest v)

/-- Counts that keep the bounds and rows satisfy the problem. -/
theorem Problem.isSatisfiedBy_of_counts {p : Problem ℚ} {values : List ℚ} (h : p.Feasible values)
    (hw : ∀ v ∈ values, ∃ k : ℕ, v = k) : p.isSatisfiedBy 0 values := by
  refine isSatisfiedBy_iff.2 ⟨h, fun q hq _ => ?_⟩
  obtain ⟨k, hk⟩ := hw q.2 (List.of_mem_zip hq).2
  rw [hk, Scalar.round_natCast]

end WorstCase
