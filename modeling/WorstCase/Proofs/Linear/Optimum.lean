import WorstCase.Linear.BranchAndBound
import WorstCase.Proofs.Linear.Exact

/-!
# Optima of relaxations

What solvers are measured by, over the rationals. `Problem.FeasibleIn` says that values lie in a box
and satisfy the rows of a problem, `Problem.OptimalIn` that a solution is feasible and no feasible
values are better in the direction of the problem.
-/

namespace WorstCase

/-- `value` is no better than `best`. -/
def Direction.NoBetter : Direction → ℚ → ℚ → Prop
  | .maximise, value, best => value ≤ best
  | .minimise, value, best => best ≤ value

/-- Turned by its sense, every direction maximises. -/
theorem Direction.noBetter_iff {d : Direction} {value best : ℚ} :
    d.NoBetter value best ↔ (d.sense : ℚ) * value ≤ (d.sense : ℚ) * best := by
  cases d with
  | maximise =>
    have hs : (Direction.maximise.sense : ℚ) = 1 := rfl
    rw [hs, one_mul, one_mul]
    rfl
  | minimise =>
    have hs : (Direction.minimise.sense : ℚ) = -1 := rfl
    rw [hs, neg_one_mul, neg_one_mul, neg_le_neg_iff]
    rfl

theorem Direction.NoBetter.trans {d : Direction} {a b c : ℚ} (hab : d.NoBetter a b)
    (hbc : d.NoBetter b c) : d.NoBetter a c := by
  rw [noBetter_iff] at *
  exact hab.trans hbc

/-- Of two values one is no better than the other. -/
theorem Direction.NoBetter.of_not {d : Direction} {a b : ℚ} (h : ¬ d.NoBetter a b) :
    d.NoBetter b a := by
  rw [noBetter_iff] at *
  exact (not_le.1 h).le

/-- The box has a bound for each column. -/
structure Box.Fits (box : Box ℚ) (p : Problem ℚ) : Prop where
  lower_length : box.lower.length = p.columns.length
  upper_length : box.upper.length = p.columns.length

namespace Problem

/-- The bounds of a problem make a box that fits it. -/
theorem box_fits (p : Problem ℚ) : p.box.Fits p :=
  ⟨List.length_map _, List.length_map _⟩

/-- The values keep the bounds of the box and satisfy all rows; they need not be whole. -/
structure FeasibleIn (p : Problem ℚ) (box : Box ℚ) (values : List ℚ) : Prop where
  length_eq : values.length = p.columns.length
  lower : ∀ (i : ℕ) (l v : ℚ), box.lower[i]? = some l → values[i]? = some v → l ≤ v
  upper : ∀ (i : ℕ) (u v : ℚ), box.upper[i]? = some (some u) → values[i]? = some v → v ≤ u
  rows : ∀ row ∈ p.rows, row.comparison.holds 0 (row.activity values) row.rhs

/-- The solution is feasible, its objective is that of its values, and nothing feasible is
better. -/
structure OptimalIn (p : Problem ℚ) (box : Box ℚ) (s : Solution ℚ) : Prop where
  feasible : p.FeasibleIn box s.values
  objective_eq : s.objective = p.objectiveAt s.values
  best : ∀ values, p.FeasibleIn box values →
    p.direction.NoBetter (p.objectiveAt values) s.objective

/-- In the box of its own bounds, feasible is what is feasible. -/
theorem feasibleIn_box_iff {p : Problem ℚ} {values : List ℚ} :
    p.FeasibleIn p.box values ↔ p.Feasible values := by
  have hmem : ∀ q : Column ℚ × ℚ, q ∈ p.columns.zip values ↔
      ∃ i : ℕ, p.columns[i]? = some q.1 ∧ values[i]? = some q.2 := by
    intro q
    simp only [List.mem_iff_getElem?, List.getElem?_zip_eq_some]
  constructor
  · intro h
    refine ⟨h.length_eq, fun q hq => ?_, h.rows⟩
    obtain ⟨i, hc, hv⟩ := (hmem q).1 hq
    refine ⟨h.lower i _ _ ?_ hv, fun u hu => h.upper i u _ ?_ hv⟩
    · rw [Problem.box, List.getElem?_map, hc, Option.map_some]
    · rw [Problem.box, List.getElem?_map, hc, Option.map_some, hu]
  · intro h
    refine ⟨h.length_eq, fun i l v hl hv => ?_, fun i u v hu hv => ?_, h.rows⟩
    · rw [Problem.box, List.getElem?_map, Option.map_eq_some_iff] at hl
      obtain ⟨column, hc, rfl⟩ := hl
      exact (h.bounds (column, v) ((hmem _).2 ⟨i, hc, hv⟩)).1
    · rw [Problem.box, List.getElem?_map, Option.map_eq_some_iff] at hu
      obtain ⟨column, hc, hcu⟩ := hu
      exact (h.bounds (column, v) ((hmem _).2 ⟨i, hc, hv⟩)).2 u hcu

end Problem

end WorstCase
