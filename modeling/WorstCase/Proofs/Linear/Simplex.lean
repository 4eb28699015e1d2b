import WorstCase.Proofs.Linear.LayOut

/-!
# The simplex method in exact arithmetic

Over the rationals and without room for rounding, what the two phases say is right: a solution is an
optimum of the relaxation, an infeasible relaxation has no feasible values, and an unbounded one has
feasible values with objectives past any bound (`Simplex.solveIn_exact`). Apart from that the method
can only run out of pivots.
-/

namespace WorstCase

namespace Tableau

/-! ## Reading off values -/

theorem raised_modify (lower : List ℚ) (i : ℕ) (v : ℚ) (x : ℕ → ℚ) :
    raised (lower.modify i (· + v)) x = raised lower fun j => (if i = j then v else 0) + x j := by
  refine List.ext_getElem? fun j => ?_
  rw [getElem?_raised, getElem?_raised, List.getElem?_modify]
  cases lower[j]? with
  | none => rfl
  | some l =>
    by_cases h : i = j
    · simp [h, add_assoc]
    · simp [h]

/-- The values that are read off are the point of the tableau, raised by the lower bounds. -/
theorem valuesFrom_eq (t : Tableau ℚ) (lower : List ℚ) :
    t.valuesFrom lower lower.length = raised lower t.point := by
  have hfold : ∀ (rows : List (TableauRow ℚ)) (values : List ℚ), values.length = lower.length →
      rows.foldl (fun values row => if row.basic < lower.length then
        values.modify row.basic (· + row.equation.constant) else values) values =
      raised values fun j =>
        (rows.map fun row => if row.basic = j then row.equation.constant else 0).sum := by
    intro rows
    induction rows with
    | nil =>
      intro values _
      refine List.ext_getElem? fun i => ?_
      simp [getElem?_raised]
    | cons row rows ih =>
      intro values hlen
      rw [List.foldl_cons]
      split
      · next hlt =>
        rw [ih _ ((List.length_modify ..).trans hlen), raised_modify]
        rfl
      · next hge =>
        rw [ih values hlen]
        refine raised_congr fun i hi => ?_
        have hne : row.basic ≠ i := by omega
        rw [List.map_cons, List.sum_cons, if_neg hne, zero_add]
  exact hfold t.rows lower rfl

end Tableau

namespace Problem

/-- What the columns of a problem bring for each unit, with the sign turned for maximising. -/
def costs (p : Problem ℚ) : List ℚ :=
  p.columns.map fun column => (p.direction.sense : ℚ) * column.objective

/-- Turned by the sense of its direction, the objective is the costs. -/
theorem sense_mul_objectiveAt (p : Problem ℚ) (values : List ℚ) :
    (p.direction.sense : ℚ) * p.objectiveAt values =
      (List.zipWith (· * ·) p.costs values).sum := by
  have hmap : List.zipWith (· * ·) p.costs values =
      (List.zipWith (fun column value => column.objective * value) p.columns values).map
        (p.direction.sense * ·) := by
    rw [costs, List.zipWith_map_left, List.map_zipWith]
    simp only [mul_assoc]
  rw [hmap, List.sum_map_mul_left, List.map_id', objectiveAt_eq_sum]

/-- The objective is that of the lower bounds and the costs of what is added to them. -/
theorem sense_mul_objectiveAt_raised (p : Problem ℚ) {lower : List ℚ}
    (h : lower.length = p.columns.length) (x : ℕ → ℚ) :
    (p.direction.sense : ℚ) * p.objectiveAt (raised lower x) =
      (p.direction.sense : ℚ) * p.objectiveAt lower + dot p.costs x := by
  rw [sense_mul_objectiveAt, sense_mul_objectiveAt, sum_zipWith_raised]
  rw [costs, List.length_map, h]

theorem costAt_costs {p : Problem ℚ} {box : Box ℚ} {t : Tableau ℚ}
    (h : (Tableau.ofProblem p box.lower box.upper).SameSolutions t) (x : ℕ → ℚ) :
    t.costAt p.costs x = dot p.costs x := by
  refine sum_range_eq_dot ?_ x
  rw [h.width_eq, costs, List.length_map]
  exact (Nat.le_add_right ..).trans (Nat.le_add_right ..)

end Problem

namespace Simplex

/-! ## The phases -/

/-- The first phase settles the tableau, or finds that it admits nothing, or runs out of budget. -/
theorem phaseOne_cases (n : ℕ) {t : Tableau ℚ} (ht : t.Feasible) :
    (∃ t', phaseOne ⟨.exact, n⟩ t = .ok t' ∧ t'.Feasible ∧ t'.Settled ∧ t.SameSolutions t') ∨
    (phaseOne ⟨.exact, n⟩ t = .error .infeasible ∧ ∀ x, ¬ t.Admits x) ∨
    phaseOne ⟨.exact, n⟩ t = .error .numericalFailure := by
  unfold phaseOne
  split
  · rcases Tableau.iterate_cases (Precision.exact.pivot : ℚ) t.width n t.loadPhaseOne with
      ⟨t', hok, hrun, hend⟩ | ⟨herr, -⟩ | herr
    · obtain ⟨hneg, hpos⟩ := ht.phaseOne_optimum hrun hend
      rw [hok]
      dsimp only
      split
      · next hlt =>
        have hlt' : t'.objective.constant < -0 := hlt
        rw [neg_zero] at hlt'
        exact Or.inr (Or.inl ⟨rfl, hneg hlt'⟩)
      · next hge =>
        have hge' : ¬ t'.objective.constant < -0 := hge
        rw [neg_zero, not_lt] at hge'
        obtain ⟨hf, hsame, hidle⟩ := hpos hge'
        obtain ⟨hf', hsame', hsettled⟩ := hf.driveOutArtificials hidle
        exact Or.inl ⟨_, rfl, hf', hsettled, hsame.trans hsame'⟩
    · rw [herr]
      exact Or.inr (Or.inr rfl)
    · rw [herr]
      exact Or.inr (Or.inr rfl)
  · next hart =>
    -- no artificial variables, so none is basic
    have hreal : ∀ row ∈ t.rows, row.basic < t.artificialStart := fun row hrow =>
      (ht.basic_lt row hrow).trans_le (not_lt.1 hart)
    exact Or.inl ⟨t, rfl, ht, ⟨fun row hrow => Or.inl (hreal row hrow),
      fun row hrow => Or.inl (hreal row hrow)⟩, (Tableau.SameMeaning.refl t).toSameSolutions⟩

/-- The second phase finds the best point, or that there is none, or runs out of budget. -/
theorem phaseTwo_cases (n : ℕ) (p : Problem ℚ) {t : Tableau ℚ} (hf : t.Feasible)
    (ht : t.Settled) :
    (∃ t', phaseTwo ⟨.exact, n⟩ p t = .ok t' ∧ t.Admits t'.point ∧
      ∀ x, t.Admits x → t.costAt p.costs x ≤ t.costAt p.costs t'.point) ∨
    (phaseTwo ⟨.exact, n⟩ p t = .error .unbounded ∧
      ∀ bound, ∃ x, t.Admits x ∧ bound < t.costAt p.costs x) ∨
    phaseTwo ⟨.exact, n⟩ p t = .error .numericalFailure := by
  have hphase : phaseTwo ⟨.exact, n⟩ p t =
      (t.loadObjective p.costs).iterate 0 t.artificialStart n := rfl
  rw [hphase]
  rcases Tableau.iterate_cases (0 : ℚ) t.artificialStart n (t.loadObjective p.costs) with
    ⟨t', hok, hrun, hend⟩ | ⟨herr, t', c, hrun, henter, hleave⟩ | herr
  · exact Or.inl ⟨t', hok, ht.phaseTwo_optimum hf p.costs hrun hend⟩
  · exact Or.inr (Or.inl ⟨herr, ht.phaseTwo_unbounded hf p.costs hrun henter hleave⟩)
  · exact Or.inr (Or.inr herr)

/-! ## The method -/

/-- A box is crossed if an upper bound lies below the lower bound of its column. -/
theorem isCrossed_iff {box : Box ℚ} {n : ℕ} : isCrossed ⟨.exact, n⟩ box ↔
    ∃ (i : ℕ) (l u : ℚ), box.lower[i]? = some l ∧ box.upper[i]? = some (some u) ∧ u < l := by
  have hcrossed : isCrossed ⟨.exact, n⟩ box ↔ ∃ q ∈ box.lower.zip box.upper,
      ∃ u, q.2 = some u ∧ u + 0 < q.1 := by
    simp only [isCrossed, List.any_eq_true, Option.any_eq_true, decide_eq_true_iff]
    rfl
  rw [hcrossed]
  simp only [List.mem_iff_getElem?, List.getElem?_zip_eq_some, add_zero]
  constructor
  · rintro ⟨⟨l, _⟩, ⟨i, hl, hu⟩, u, rfl, hlt⟩
    exact ⟨i, l, u, hl, hu, hlt⟩
  · rintro ⟨i, l, u, hl, hu, hlt⟩
    exact ⟨(l, some u), ⟨i, hl, hu⟩, u, rfl, hlt⟩

section method

variable {p : Problem ℚ} {box : Box ℚ}

theorem not_feasibleIn_of_crossed (hbox : box.Fits p) {n : ℕ} (h : isCrossed ⟨.exact, n⟩ box)
    (values : List ℚ) : ¬ p.FeasibleIn box values := by
  obtain ⟨i, l, u, hl, hu, hlt⟩ := isCrossed_iff.1 h
  intro hv
  have hi : i < values.length := by
    rw [hv.length_eq, ← hbox.lower_length]
    exact (List.getElem?_eq_some_iff.1 hl).1
  have hvalue := List.getElem?_eq_getElem hi
  exact absurd ((hv.lower i l _ hl hvalue).trans (hv.upper i u _ hu hvalue)) (not_le.2 hlt)

/-- The best point that is admitted is an optimum in the box. -/
theorem optimalIn_of_admits (hp : p.Known) (hbox : box.Fits p) {x : ℕ → ℚ}
    (hx : (Tableau.ofProblem p box.lower box.upper).Admits x)
    (hbest : ∀ y, (Tableau.ofProblem p box.lower box.upper).Admits y →
      dot p.costs y ≤ dot p.costs x) :
    p.OptimalIn box ⟨p.objectiveAt (raised box.lower x), raised box.lower x⟩ := by
  refine ⟨Problem.feasibleIn_of_admits hp hbox hx, rfl, fun values hvalues => ?_⟩
  obtain ⟨y, hy, rfl⟩ := Problem.exists_admits hp hbox hvalues
  rw [Direction.noBetter_iff, p.sense_mul_objectiveAt_raised hbox.lower_length,
    p.sense_mul_objectiveAt_raised hbox.lower_length]
  exact add_le_add_right (hbest y hy) _

/-- Points that are admitted at any cost make the problem unbounded. -/
theorem exists_better_of_admits (hp : p.Known) (hbox : box.Fits p) {bound : ℚ} {x : ℕ → ℚ}
    (hx : (Tableau.ofProblem p box.lower box.upper).Admits x)
    (hbound : p.direction.sense * bound - p.direction.sense * p.objectiveAt box.lower <
      dot p.costs x) :
    ∃ values, p.FeasibleIn box values ∧ ¬ p.direction.NoBetter (p.objectiveAt values) bound := by
  refine ⟨_, Problem.feasibleIn_of_admits hp hbox hx, ?_⟩
  rw [Direction.noBetter_iff, p.sense_mul_objectiveAt_raised hbox.lower_length, not_le]
  exact sub_lt_iff_lt_add'.1 hbound

/-- All that the simplex method can answer, and what it means. -/
theorem solveIn_cases (hp : p.Known) (hbox : box.Fits p) (n : ℕ) :
    (∃ s, solveIn ⟨.exact, n⟩ p box = .ok s ∧ p.OptimalIn box s) ∨
    (solveIn ⟨.exact, n⟩ p box = .error .infeasible ∧ ∀ values, ¬ p.FeasibleIn box values) ∨
    (solveIn ⟨.exact, n⟩ p box = .error .unbounded ∧ ∀ bound, ∃ values,
      p.FeasibleIn box values ∧ ¬ p.direction.NoBetter (p.objectiveAt values) bound) ∨
    solveIn ⟨.exact, n⟩ p box = .error .numericalFailure := by
  unfold solveIn
  split
  · next hcrossed => exact Or.inr (Or.inl ⟨rfl, not_feasibleIn_of_crossed hbox hcrossed⟩)
  · rcases phaseOne_cases n (Tableau.feasible_ofProblem p box) with
      ⟨t, hone, hf, hsettled, hsame⟩ | ⟨hone, hnone⟩ | hone
    · rw [hone]
      dsimp only
      rcases phaseTwo_cases n p hf hsettled with ⟨t', htwo, hpoint, hbest⟩ | ⟨htwo, hray⟩ | htwo
      · rw [htwo]
        dsimp only
        rw [← hbox.lower_length, Tableau.valuesFrom_eq]
        refine Or.inl ⟨_, rfl, ?_⟩
        apply optimalIn_of_admits hp hbox ((hsame.admits_iff _).1 hpoint)
        intro y hy
        rw [← Problem.costAt_costs hsame, ← Problem.costAt_costs hsame]
        exact hbest y ((hsame.admits_iff y).2 hy)
      · rw [htwo]
        refine Or.inr (Or.inr (Or.inl ⟨rfl, fun bound => ?_⟩))
        obtain ⟨x, hx, hbound⟩ := hray
          (p.direction.sense * bound - p.direction.sense * p.objectiveAt box.lower)
        rw [Problem.costAt_costs hsame] at hbound
        exact exists_better_of_admits hp hbox ((hsame.admits_iff x).1 hx) hbound
      · rw [htwo]
        exact Or.inr (Or.inr (Or.inr rfl))
    · rw [hone]
      refine Or.inr (Or.inl ⟨rfl, fun values hvalues => ?_⟩)
      obtain ⟨x, hx, -⟩ := Problem.exists_admits hp hbox hvalues
      exact hnone x hx
    · rw [hone]
      exact Or.inr (Or.inr (Or.inr rfl))

end method

/-- The simplex method is right in exact arithmetic: a solution is an optimum, there is nothing
feasible where it says so, and the objective passes every bound where it says so. -/
theorem solveIn_exact {p : Problem ℚ} (hp : p.Built) {box : Box ℚ} (hbox : box.Fits p)
    (maxIterations : ℕ) :
    (∀ s, solveIn ⟨.exact, maxIterations⟩ p box = .ok s → p.OptimalIn box s) ∧
    (solveIn ⟨.exact, maxIterations⟩ p box = .error .infeasible →
      ∀ values, ¬ p.FeasibleIn box values) ∧
    (solveIn ⟨.exact, maxIterations⟩ p box = .error .unbounded →
      (∃ values, p.FeasibleIn box values) ∧ ∀ bound, ∃ values,
        p.FeasibleIn box values ∧ ¬ p.direction.NoBetter (p.objectiveAt values) bound) ∧
    (∀ status, solveIn ⟨.exact, maxIterations⟩ p box = .error status →
      status = .infeasible ∨ status = .unbounded ∨ status = .numericalFailure) := by
  rcases solveIn_cases hp.known hbox maxIterations with
    ⟨s, h, hoptimal⟩ | ⟨h, hnone⟩ | ⟨h, hray⟩ | h <;> rw [h]
  · refine ⟨fun s' hs => ?_, nofun, nofun, nofun⟩
    cases hs
    exact hoptimal
  · refine ⟨nofun, fun _ => hnone, nofun, fun status hs => ?_⟩
    cases hs
    exact Or.inl rfl
  · refine ⟨nofun, nofun, fun _ => ⟨?_, hray⟩, fun status hs => ?_⟩
    · obtain ⟨values, hvalues, -⟩ := hray 0
      exact ⟨values, hvalues⟩
    · cases hs
      exact Or.inr (Or.inl rfl)
  · refine ⟨nofun, nofun, nofun, fun status hs => ?_⟩
    cases hs
    exact Or.inr (Or.inr rfl)

end Simplex

namespace Sample

/-- A problem that needs both phases: a column twice in a row, a negative right side and an
equation. -/
def wedge : Problem ℚ where
  name := "wedge"
  direction := .maximise
  columns := [⟨"x", 0, none, false, 1⟩, ⟨"y", 0, none, false, 1⟩, ⟨"z", 0, none, false, 0⟩]
  rows := [⟨[(2, 1), (1, 1), (1, -2)], .atMost, 2, .other, none⟩,
    ⟨[(1, -1), (2, -1)], .atMost, -1, .other, none⟩,
    ⟨[(3, 1), (1, -1)], .equal, 0, .other, none⟩]

/-- The box that has `x` at most 3 and `z` at least `least`. -/
def lid (least : ℚ) : Box ℚ :=
  ⟨[0, 0, least], [some 3, none, none]⟩

theorem built_wedge : wedge.Built := by
  have hcolumns : Problem.Built _ := (((Problem.Built.empty (α := ℚ) "wedge" .maximise).addColumn
    "x" false).addColumn "y" false).addColumn "z" false
  have hobjective : Problem.Built _ := (hcolumns.setObjective 1 1 rfl).setObjective 2 1 rfl
  exact ((hobjective.addRow ⟨[(2, 1), (1, 1), (1, -2)], .atMost, 2, .other, none⟩ rfl).addRow
    ⟨[(1, -1), (2, -1)], .atMost, -1, .other, none⟩ rfl).addRow
      ⟨[(3, 1), (1, -1)], .equal, 0, .other, none⟩ rfl

theorem lid_fits (least : ℚ) : (lid least).Fits wedge :=
  ⟨rfl, rfl⟩

end Sample

namespace Simplex

open Sample in
/-- The wedge is solved in a box that closes it, has no solution in one that starts too high, and
goes on for ever in its own box. -/
theorem solveIn_exact_wedge : wedge.OptimalIn (lid 0) ⟨8, [3, 5, 3]⟩ ∧
    (∀ values, ¬ wedge.FeasibleIn (lid 5) values) ∧
    (∃ values, wedge.FeasibleIn wedge.box values) ∧
    ∀ bound, ∃ values, wedge.FeasibleIn wedge.box values ∧ ¬ wedge.objectiveAt values ≤ bound := by
  have hlid := solveIn_exact built_wedge (lid_fits 0) 20
  have hhigh := solveIn_exact built_wedge (lid_fits 5) 20
  have hopen := solveIn_exact built_wedge wedge.box_fits 20
  refine ⟨hlid.1 _ ?_, hhigh.2.1 ?_, hopen.2.2.1 ?_⟩
  · decide +kernel
  · decide +kernel
  · decide +kernel

end Simplex

end WorstCase
