import WorstCase.Proofs.Linear.Simplex

/-!
# Branch and bound over exact relaxations

The search keeps a stack of boxes and the best whole solution so far. Through all of it, values that
satisfy the problem are in a box of the stack or no better than the best solution
(`BranchAndBound.Searching`). Splitting a box at a fractional value loses no whole values, and a box
is dropped only when nothing in it is better. With nothing on the stack the best solution is an
optimum of the problem (`BranchAndBound.solveWith_exact`).
-/

namespace WorstCase

/-! ## Parts of boxes -/

section parts

variable {p : Problem ℚ} {box : Box ℚ} {values : List ℚ} {i : ℕ}

theorem Box.Fits.below (h : box.Fits p) (i : ℕ) (v : ℚ) : (box.below i v).Fits p :=
  ⟨h.lower_length, (List.length_set ..).trans h.upper_length⟩

theorem Box.Fits.above (h : box.Fits p) (i : ℕ) (v : ℚ) : (box.above i v).Fits p :=
  ⟨(List.length_set ..).trans h.lower_length, h.upper_length⟩

theorem Problem.FeasibleIn.below (h : p.FeasibleIn box values) {bound : ℚ}
    (hv : ∀ v, values[i]? = some v → v ≤ bound) : p.FeasibleIn (box.below i bound) values := by
  refine ⟨h.length_eq, h.lower, fun j u v hu hjv => ?_, h.rows⟩
  rw [Box.below, List.getElem?_set] at hu
  split at hu
  · next heq =>
    subst heq
    split at hu
    · cases hu
      exact hv v hjv
    · cases hu
  · exact h.upper j u v hu hjv

theorem Problem.FeasibleIn.above (h : p.FeasibleIn box values) {bound : ℚ}
    (hv : ∀ v, values[i]? = some v → bound ≤ v) : p.FeasibleIn (box.above i bound) values := by
  refine ⟨h.length_eq, fun j l v hl hjv => ?_, h.upper, h.rows⟩
  rw [Box.above, List.getElem?_set] at hl
  split at hl
  · next heq =>
    subst heq
    split at hl
    · cases hl
      exact hv v hjv
    · cases hl
  · exact h.lower j l v hl hjv

/-- Below a value that keeps the bounds of the box there is only what is in the box. -/
theorem Problem.FeasibleIn.of_below {bound : ℚ} (h : p.FeasibleIn (box.below i bound) values)
    (hbound : ∀ u, box.upper[i]? = some (some u) → bound ≤ u) : p.FeasibleIn box values := by
  refine ⟨h.length_eq, h.lower, fun j u v hu hjv => ?_, h.rows⟩
  by_cases heq : i = j
  · subst heq
    have hi : i < box.upper.length := (List.getElem?_eq_some_iff.1 hu).1
    exact (h.upper i bound v (List.getElem?_set_self hi) hjv).trans (hbound u hu)
  · exact h.upper j u v ((List.getElem?_set_ne heq).trans hu) hjv

/-- Raising a lower bound only takes solutions away. -/
theorem Problem.FeasibleIn.of_above {bound : ℚ} (h : p.FeasibleIn (box.above i bound) values)
    (hbound : ∀ l, box.lower[i]? = some l → l ≤ bound) : p.FeasibleIn box values := by
  refine ⟨h.length_eq, fun j l v hl hjv => ?_, h.upper, h.rows⟩
  by_cases heq : i = j
  · subst heq
    have hi : i < box.lower.length := (List.getElem?_eq_some_iff.1 hl).1
    exact (hbound l hl).trans (h.lower i bound v (List.getElem?_set_self hi) hjv)
  · exact h.lower j l v ((List.getElem?_set_ne heq).trans hl) hjv

end parts

/-! ## Whole values -/

theorem Scalar.floor_le (v : ℚ) : Scalar.floor v ≤ v :=
  Rat.le_floor_iff.1 le_rfl

theorem Scalar.le_ceil (v : ℚ) : v ≤ Scalar.ceil v :=
  Rat.ceil_le_iff.1 le_rfl

/-- There is no whole value between the floor and the ceiling of a value. -/
theorem Scalar.le_floor_or_ceil_le {w : ℚ} (hw : w = Scalar.round w) (v : ℚ) :
    w ≤ Scalar.floor v ∨ Scalar.ceil v ≤ w := by
  have hround : Scalar.round w = ((Rational.nearest w : ℤ) : ℚ) := rfl
  have hfloor : Scalar.floor v = ((v.floor : ℤ) : ℚ) := rfl
  have hceil : Scalar.ceil v = ((v.ceil : ℤ) : ℚ) := rfl
  rw [hw, hround, hfloor, hceil, Int.cast_le, Int.cast_le, Rat.le_floor_iff, Rat.ceil_le_iff]
  exact le_total _ _

/-- Feasible values that are whole at a column are in one of the parts of the box around any
value. -/
theorem Problem.FeasibleIn.below_or_above {p : Problem ℚ} {box : Box ℚ} {values : List ℚ} {i : ℕ}
    {w : ℚ} (h : p.FeasibleIn box values) (hi : values[i]? = some w) (hw : w = Scalar.round w)
    (v : ℚ) : p.FeasibleIn (box.below i (Scalar.floor v)) values ∨
      p.FeasibleIn (box.above i (Scalar.ceil v)) values := by
  refine (Scalar.le_floor_or_ceil_le hw v).imp (fun hle => h.below fun w' hw' => ?_)
    fun hle => h.above fun w' hw' => ?_
  · rw [hi, Option.some.injEq] at hw'
    exact hw' ▸ hle
  · rw [hi, Option.some.injEq] at hw'
    exact hw' ▸ hle

/-- The parts of a box around a value in it lie in the box. -/
theorem Problem.FeasibleIn.of_parts {p : Problem ℚ} {box : Box ℚ} {relaxed : List ℚ}
    (h : p.FeasibleIn box relaxed) {i : ℕ} {v : ℚ} (hv : relaxed[i]? = some v) (values : List ℚ) :
    (p.FeasibleIn (box.above i (Scalar.ceil v)) values → p.FeasibleIn box values) ∧
      (p.FeasibleIn (box.below i (Scalar.floor v)) values → p.FeasibleIn box values) :=
  ⟨fun hup => hup.of_above fun l hl => (h.lower i l v hl hv).trans (Scalar.le_ceil v),
    fun hdown => hdown.of_below fun u hu => (Scalar.floor_le v).trans (h.upper i u v hu hv)⟩

namespace BranchAndBound

section fractional

variable {α : Type} [Scalar α] {slack : α} {p : Problem α} {values : List α}

/-- If nothing is left to branch on, no integer column is off by more than the slack. -/
theorem not_lt_of_fractional?_eq_none (h : fractional? slack p values = none) :
    ∀ q ∈ p.columns.zip values, q.1.integer → ¬ slack < Scalar.abs (q.2 - Scalar.round q.2) := by
  intro q hq hinteger hlt
  obtain ⟨i, hi⟩ := List.mem_iff_getElem?.1 hq
  have hsome := List.findSome?_eq_none_iff.1 h (q, i) (List.mem_zipIdx_iff_getElem?.2 hi)
  simp only [hinteger, Bool.true_and] at hsome
  rw [if_pos (decide_eq_true hlt)] at hsome
  cases hsome

theorem fractional?_eq_some {i : ℕ} {v : α} (h : fractional? slack p values = some (i, v)) :
    ∃ column, p.columns[i]? = some column ∧ column.integer ∧ values[i]? = some v := by
  obtain ⟨⟨⟨column, value⟩, j⟩, hmem, hf⟩ := List.exists_of_findSome?_eq_some h
  rw [List.mem_zipIdx_iff_getElem?, List.getElem?_zip_eq_some] at hmem
  dsimp only at hmem hf
  split at hf
  · next hcond =>
    cases hf
    exact ⟨column, hmem.1, (Bool.and_eq_true_iff.1 hcond).1, hmem.2⟩
  · cases hf

end fractional

/-- Without a tolerance, nothing is left to branch on only if the integer columns are whole. -/
theorem fractional?_eq_none {p : Problem ℚ} {values : List ℚ} (h : fractional? 0 p values = none) :
    ∀ q ∈ p.columns.zip values, q.1.integer → q.2 = Scalar.round q.2 := by
  intro q hq hinteger
  have hle : ¬ (0 : ℚ) < Scalar.abs (q.2 - Scalar.round q.2) :=
    not_lt_of_fractional?_eq_none h q hq hinteger
  rw [Scalar.abs_eq, abs_pos, not_not] at hle
  exact sub_eq_zero.1 hle

theorem zipWith_eq_right {ι : Type} {f : ι → ℚ → ℚ} {xs : List ι} {ys : List ℚ}
    (hlen : ys.length = xs.length) (h : ∀ q ∈ xs.zip ys, f q.1 q.2 = q.2) :
    List.zipWith f xs ys = ys := by
  rw [← List.map_uncurry_zip_eq_zipWith]
  calc (xs.zip ys).map (Function.uncurry f) = (xs.zip ys).map Prod.snd := List.map_congr_left h
    _ = ys := List.map_snd_zip hlen.le

/-- Rounding a solution that is whole where it has to be leaves it as it is. -/
theorem settle_eq {p : Problem ℚ} {values : List ℚ} (hlen : values.length = p.columns.length)
    (h : ∀ q ∈ p.columns.zip values, q.1.integer → q.2 = Scalar.round q.2) :
    settle p values = ⟨p.objectiveAt values, values⟩ := by
  have hvalues : List.zipWith
      (fun column value => if column.integer then Scalar.round value else value)
      p.columns values = values := by
    refine zipWith_eq_right hlen fun q hq => ?_
    split
    · next hinteger => exact (h q hq hinteger).symm
    · rfl
  rw [settle, hvalues]

/-- Without a tolerance, a box is dropped if its relaxation is no better than the best solution. -/
theorem isHopeless_iff {p : Problem ℚ} {best relaxed : Solution ℚ} :
    isHopeless 0 p (some best) relaxed ↔ p.direction.NoBetter relaxed.objective best.objective := by
  have hiff : isHopeless 0 p (some best) relaxed ↔ (p.direction.sense : ℚ) * relaxed.objective ≤
      p.direction.sense * best.objective + 0 := decide_eq_true_iff
  rw [hiff, add_zero, Direction.noBetter_iff]

end BranchAndBound

/-! ## The search -/

/-- The relaxation is solved rightly whenever it is solved: what it finds is an optimum in the box,
and nothing is feasible in a box that it gives up. -/
structure Relaxation.Exact (relax : Relaxation ℚ) (p : Problem ℚ) : Prop where
  optimal : ∀ box s, box.Fits p → relax p box = .ok s → p.OptimalIn box s
  infeasible : ∀ box, box.Fits p → relax p box = .error .infeasible →
    ∀ values, ¬ p.FeasibleIn box values

/-- The solution satisfies the problem, its objective is that of its values, and nothing that
satisfies the problem is better. -/
structure Problem.Optimal (p : Problem ℚ) (s : Solution ℚ) : Prop where
  satisfied : p.isSatisfiedBy 0 s.values
  objective_eq : s.objective = p.objectiveAt s.values
  best : ∀ values, p.isSatisfiedBy 0 values →
    p.direction.NoBetter (p.objectiveAt values) s.objective

namespace BranchAndBound

/-- `best` is no worse than `value`. -/
def Reaches (p : Problem ℚ) (best : Option (Solution ℚ)) (value : ℚ) : Prop :=
  ∃ s, best = some s ∧ p.direction.NoBetter value s.objective

/-- What holds at any time of the search. -/
structure Searching (p : Problem ℚ) (stack : List (Box ℚ)) (best : Option (Solution ℚ)) : Prop where
  fits : ∀ box ∈ stack, box.Fits p
  inside : ∀ box ∈ stack, ∀ values, p.FeasibleIn box values → p.Feasible values
  found : ∀ s, best = some s →
    p.isSatisfiedBy 0 s.values ∧ s.objective = p.objectiveAt s.values
  covered : ∀ values, p.isSatisfiedBy 0 values →
    (∃ box ∈ stack, p.FeasibleIn box values) ∨ Reaches p best (p.objectiveAt values)

variable {p : Problem ℚ} {box : Box ℚ} {stack : List (Box ℚ)} {best : Option (Solution ℚ)}

/-- The search starts with all values of the columns still to be looked at. -/
theorem searching_start (p : Problem ℚ) : Searching p [p.box] none where
  fits := List.forall_mem_singleton.2 p.box_fits
  inside := List.forall_mem_singleton.2 fun _ h => Problem.feasibleIn_box_iff.1 h
  found := nofun
  covered _ h := Or.inl ⟨p.box, List.mem_singleton_self _,
    Problem.feasibleIn_box_iff.2 (Problem.isSatisfiedBy_iff.1 h).1⟩

/-- A box can go when nothing in it is better than the best solution. -/
theorem Searching.drop (h : Searching p (box :: stack) best)
    (hbox : ∀ values, p.FeasibleIn box values → Reaches p best (p.objectiveAt values)) :
    Searching p stack best := by
  refine ⟨fun b hb => h.fits b (List.mem_cons_of_mem _ hb),
    fun b hb => h.inside b (List.mem_cons_of_mem _ hb), h.found, fun values hvalues => ?_⟩
  rcases h.covered values hvalues with ⟨b, hb, hin⟩ | hreached
  · rcases List.mem_cons.1 hb with rfl | hb
    · exact Or.inr (hbox values hin)
    · exact Or.inl ⟨b, hb, hin⟩
  · exact Or.inr hreached

/-- A box can be split at the value of a column that has to be whole. -/
theorem Searching.split (h : Searching p (box :: stack) best) {relaxed : List ℚ}
    (hrelaxed : p.FeasibleIn box relaxed) {i : ℕ} {v : ℚ}
    (hfractional : fractional? 0 p relaxed = some (i, v)) :
    Searching p (box.above i (Scalar.ceil v) :: box.below i (Scalar.floor v) :: stack) best := by
  obtain ⟨column, hcolumn, hinteger, hv⟩ := fractional?_eq_some hfractional
  have hfits := h.fits box List.mem_cons_self
  have hinside := h.inside box List.mem_cons_self
  refine ⟨?_, ?_, h.found, fun values hvalues => ?_⟩
  · exact List.forall_mem_cons.2 ⟨hfits.above i _, List.forall_mem_cons.2 ⟨hfits.below i _,
      fun b hb => h.fits b (List.mem_cons_of_mem _ hb)⟩⟩
  · have hparts := hrelaxed.of_parts hv
    exact List.forall_mem_cons.2 ⟨fun values hin => hinside values ((hparts values).1 hin),
      List.forall_mem_cons.2 ⟨fun values hin => hinside values ((hparts values).2 hin),
        fun b hb => h.inside b (List.mem_cons_of_mem _ hb)⟩⟩
  · rcases h.covered values hvalues with ⟨b, hb, hin⟩ | hreached
    · rcases List.mem_cons.1 hb with rfl | hb
      · have hi : i < values.length := by
          rw [hin.length_eq]
          exact (List.getElem?_eq_some_iff.1 hcolumn).1
        have hw : values[i]? = some values[i] := List.getElem?_eq_getElem hi
        have hwhole : values[i] = Scalar.round values[i] :=
          (Problem.isSatisfiedBy_iff.1 hvalues).2 (column, values[i])
            (List.mem_iff_getElem?.2 ⟨i, List.getElem?_zip_eq_some.2 ⟨hcolumn, hw⟩⟩) hinteger
        rcases hin.below_or_above hw hwhole v with hpart | hpart
        · exact Or.inl ⟨_, List.mem_cons_of_mem _ List.mem_cons_self, hpart⟩
        · exact Or.inl ⟨_, List.mem_cons_self, hpart⟩
      · exact Or.inl ⟨b, List.mem_cons_of_mem _ (List.mem_cons_of_mem _ hb), hin⟩
    · exact Or.inr hreached

/-- A relaxation that is better and whole takes the place of the best solution. -/
theorem Searching.improve (h : Searching p (box :: stack) best) {relaxed : Solution ℚ}
    (hrelaxed : p.OptimalIn box relaxed) (hhope : ¬ isHopeless 0 p best relaxed)
    (hwhole : fractional? 0 p relaxed.values = none) :
    Searching p stack (some (settle p relaxed.values)) := by
  have hvalues := fractional?_eq_none hwhole
  have hsettle : settle p relaxed.values = relaxed := by
    rw [settle_eq hrelaxed.feasible.length_eq hvalues, ← hrelaxed.objective_eq]
  rw [hsettle]
  refine ⟨fun b hb => h.fits b (List.mem_cons_of_mem _ hb),
    fun b hb => h.inside b (List.mem_cons_of_mem _ hb), fun s hs => ?_, fun values hsat => ?_⟩
  · cases hs
    have hfeasible := h.inside box List.mem_cons_self _ hrelaxed.feasible
    exact ⟨Problem.isSatisfiedBy_iff.2 ⟨hfeasible, hvalues⟩, hrelaxed.objective_eq⟩
  · rcases h.covered values hsat with ⟨b, hb, hin⟩ | ⟨s, hs, hle⟩
    · rcases List.mem_cons.1 hb with rfl | hb
      · exact Or.inr ⟨relaxed, rfl, hrelaxed.best values hin⟩
      · exact Or.inl ⟨b, hb, hin⟩
    · -- the relaxation promised more than the best solution so far
      rw [hs, isHopeless_iff] at hhope
      exact Or.inr ⟨relaxed, rfl, hle.trans (Direction.NoBetter.of_not hhope)⟩

/-- In a box whose relaxation is hopeless nothing is better than the best solution. -/
theorem reaches_of_isHopeless {relaxed : Solution ℚ} (hrelaxed : p.OptimalIn box relaxed)
    (h : isHopeless 0 p best relaxed) {values : List ℚ} (hin : p.FeasibleIn box values) :
    Reaches p best (p.objectiveAt values) := by
  cases best with
  | none => cases h
  | some s => exact ⟨s, rfl, (hrelaxed.best values hin).trans (isHopeless_iff.1 h)⟩

/-- What the search answers. -/
theorem Searching.explore {relax : Relaxation ℚ} (hrelax : relax.Exact p) {nodes : ℕ}
    (h : Searching p stack best) :
    (∀ s, explore 0 (relax p) p nodes stack best = .ok s → p.Optimal s) ∧
      (explore 0 (relax p) p nodes stack best = .error .infeasible →
        ∀ values, ¬ p.isSatisfiedBy 0 values) := by
  fun_induction BranchAndBound.explore 0 (relax p) p nodes stack best with
  | case1 _ =>
    refine ⟨nofun, fun _ values hvalues => ?_⟩
    rcases h.covered values hvalues with ⟨b, hb, -⟩ | ⟨s, hs, -⟩
    · exact absurd hb List.not_mem_nil
    · cases hs
  | case2 _ best =>
    refine ⟨fun s hs => ?_, nofun⟩
    cases hs
    obtain ⟨hsat, hobjective⟩ := h.found best rfl
    refine ⟨hsat, hobjective, fun values hvalues => ?_⟩
    rcases h.covered values hvalues with ⟨b, hb, -⟩ | ⟨s, hs, hle⟩
    · exact absurd hb List.not_mem_nil
    · cases hs
      exact hle
  | case3 => exact ⟨nofun, nofun⟩
  | case4 nodes box stack best hrel ih =>
    have hnone := hrelax.infeasible box (h.fits box List.mem_cons_self) hrel
    exact ih (h.drop fun values hin => absurd hin (hnone values))
  | case5 nodes box stack best status hstatus hrel =>
    refine ⟨nofun, fun herr => ?_⟩
    cases herr
    exact absurd rfl hstatus
  | case6 nodes box stack best relaxed hrel hhopeless ih =>
    have hoptimal := hrelax.optimal box relaxed (h.fits box List.mem_cons_self) hrel
    exact ih (h.drop fun values hin => reaches_of_isHopeless hoptimal hhopeless hin)
  | case7 nodes box stack best relaxed hrel hhope i v hfractional up down ih =>
    have hoptimal := hrelax.optimal box relaxed (h.fits box List.mem_cons_self) hrel
    exact ih (h.split hoptimal.feasible hfractional)
  | case8 nodes box stack best relaxed hrel hhope hwhole ih =>
    have hoptimal := hrelax.optimal box relaxed (h.fits box List.mem_cons_self) hrel
    exact ih (h.improve hoptimal hhope hwhole)

/-- Branch and bound is exact when its relaxation is: a solution is an optimum of the problem with
its demands for whole values, and nothing satisfies the problem where it says so. -/
theorem solveWith_exact {p : Problem ℚ} {relax : Relaxation ℚ} (hrelax : relax.Exact p)
    (limits : SearchLimits) :
    (∀ s, solveWith 0 limits relax p = .ok s → p.Optimal s) ∧
      (solveWith 0 limits relax p = .error .infeasible →
        ∀ values, ¬ p.isSatisfiedBy 0 values) := by
  unfold solveWith
  split
  · exact ⟨nofun, nofun⟩
  · exact (searching_start p).explore hrelax

end BranchAndBound

/-- In exact arithmetic the simplex method is a relaxation that can be trusted. -/
theorem Simplex.relaxation_exact {p : Problem ℚ} (hp : p.Known) (maxIterations : ℕ) :
    Relaxation.Exact (solveIn ⟨.exact, maxIterations⟩) p := by
  constructor
  · intro box s hbox h
    rcases solveIn_cases hp hbox maxIterations with ⟨s', h', hoptimal⟩ | ⟨h', -⟩ | ⟨h', -⟩ | h' <;>
      rw [h'] at h <;> cases h
    exact hoptimal
  · intro box hbox h
    rcases solveIn_cases hp hbox maxIterations with ⟨s', h', -⟩ | ⟨h', hnone⟩ | ⟨h', -⟩ | h' <;>
      rw [h'] at h <;> cases h
    exact hnone

namespace Sample

/-- A problem with whole columns and one that need not be whole, whose relaxation is fractional. -/
def mixed : Problem ℚ where
  name := "mixed"
  direction := .maximise
  columns := [⟨"x", 0, none, true, 5⟩, ⟨"y", 0, none, true, 4⟩, ⟨"z", 0, none, false, 1⟩]
  rows := [⟨[(1, 6), (2, 4)], .atMost, 24, .other, none⟩,
    ⟨[(1, 1), (2, 2)], .atMost, 6, .other, none⟩,
    ⟨[(1, 1), (3, 2)], .atMost, 5, .other, none⟩]

theorem known_mixed : mixed.Known := by
  unfold Problem.Known
  decide

/-- A problem that only its relaxation has a solution of. -/
def odd : Problem ℚ where
  name := "odd"
  direction := .minimise
  columns := [⟨"x", 0, some 3, true, 1⟩]
  rows := [⟨[(1, 2)], .equal, 3, .other, none⟩]

theorem known_odd : odd.Known := by
  unfold Problem.Known
  decide

end Sample

namespace BranchAndBound

open Sample in
/-- A problem with integer and other columns has the optimum that is found, and one whose rows ask
for half an integer has no solution. -/
theorem solveWith_exact_mixed : mixed.Optimal ⟨41 / 2, [4, 0, 1 / 2]⟩ ∧
    ∀ values, ¬ odd.isSatisfiedBy 0 values := by
  have hmixed := solveWith_exact (Simplex.relaxation_exact known_mixed 50) ⟨20, none⟩
  have hodd := solveWith_exact (Simplex.relaxation_exact known_odd 50) ⟨20, none⟩
  refine ⟨hmixed.1 _ ?_, hodd.2 ?_⟩
  · decide +kernel
  · decide +kernel

end BranchAndBound

end WorstCase
