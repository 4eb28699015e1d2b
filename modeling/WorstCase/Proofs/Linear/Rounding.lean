import WorstCase.Proofs.Linear.BranchAndBound

/-!
# What rounding costs

A relaxation whose values are whole up to the slack is taken as whole, and its values are rounded.
So what the search finds is a rounded solution of the relaxation in some part of the box
(`BranchAndBound.Settled`), in any arithmetic. Rounding moves a row by its coefficients
(`Problem.abs_activity_sub_le`), which can be more than the slack: the values need not satisfy the
problem. In exact arithmetic each row is missed by at most the slack times the sum of its
coefficients, and a row of whole numbers not at all while this product is below one
(`BranchAndBound.solve_rounded`).
-/

namespace WorstCase

/-! ## Where solutions come from -/

namespace BranchAndBound

section settled

variable {α : Type} [Scalar α]

/-- The box comes from that of the problem by splitting at values of relaxations. -/
inductive Reached (slack : α) (relax : Box α → Except Status (Solution α)) (p : Problem α) :
    Box α → Prop
  | start : Reached slack relax p p.box
  | splitUp {box : Box α} {relaxed : Solution α} {i : ℕ} {v : α} (h : Reached slack relax p box)
      (hrelax : relax box = .ok relaxed) (hv : fractional? slack p relaxed.values = some (i, v)) :
      Reached slack relax p (box.above i (Scalar.ceil v))
  | splitDown {box : Box α} {relaxed : Solution α} {i : ℕ} {v : α} (h : Reached slack relax p box)
      (hrelax : relax box = .ok relaxed) (hv : fractional? slack p relaxed.values = some (i, v)) :
      Reached slack relax p (box.below i (Scalar.floor v))

/-- The solution is that of a relaxation in a box reached, whose values are further than the slack
from whole in no column that has to be whole, with these columns rounded. -/
def Settled (slack : α) (relax : Box α → Except Status (Solution α)) (p : Problem α)
    (s : Solution α) : Prop :=
  ∃ box relaxed, Reached slack relax p box ∧ relax box = .ok relaxed ∧
    (∀ q ∈ p.columns.zip relaxed.values, q.1.integer →
      ¬ slack < Scalar.abs (q.2 - Scalar.round q.2)) ∧
    s = settle p relaxed.values

variable {slack : α} {p : Problem α}

/-- The search goes through boxes reached and keeps a settled solution. -/
theorem settled_of_explore {relax : Box α → Except Status (Solution α)} {nodes : ℕ}
    {stack : List (Box α)} {best : Option (Solution α)} {s : Solution α}
    (hstack : ∀ box ∈ stack, Reached slack relax p box)
    (hbest : ∀ s, best = some s → Settled slack relax p s)
    (h : explore slack relax p nodes stack best = .ok s) : Settled slack relax p s := by
  fun_induction explore slack relax p nodes stack best with
  | case1 => cases h
  | case2 =>
    cases h
    exact hbest _ rfl
  | case3 => cases h
  | case4 nodes box stack best hrelax ih =>
    exact ih (List.forall_mem_cons.1 hstack).2 hbest h
  | case5 => cases h
  | case6 nodes box stack best relaxed hrelax hhopeless ih =>
    exact ih (List.forall_mem_cons.1 hstack).2 hbest h
  | case7 nodes box stack best relaxed hrelax hhope i v hv up down ih =>
    obtain ⟨hbox, hstack⟩ := List.forall_mem_cons.1 hstack
    exact ih (List.forall_mem_cons.2 ⟨.splitUp hbox hrelax hv,
      List.forall_mem_cons.2 ⟨.splitDown hbox hrelax hv, hstack⟩⟩) hbest h
  | case8 nodes box stack best relaxed hrelax hhope hwhole ih =>
    obtain ⟨hbox, hstack⟩ := List.forall_mem_cons.1 hstack
    refine ih hstack (fun s hs => ?_) h
    cases hs
    exact ⟨box, relaxed, hbox, hrelax, not_lt_of_fractional?_eq_none hwhole, rfl⟩

theorem settled_of_solveWith {relax : Relaxation α} {limits : SearchLimits} {s : Solution α}
    (h : solveWith slack limits relax p = .ok s) : Settled slack (relax p) p s := by
  unfold solveWith at h
  split at h
  · cases h
  · exact settled_of_explore (List.forall_mem_singleton.2 .start) (fun _ hs => by cases hs) h

end settled

/-- In exact arithmetic the boxes reached are parts of that of the problem. -/
theorem Reached.inside {p : Problem ℚ} {slack : ℚ} {relax : Relaxation ℚ} (hrelax : relax.Exact p)
    {box : Box ℚ} (h : Reached slack (relax p) p box) :
    box.Fits p ∧ ∀ values, p.FeasibleIn box values → p.Feasible values := by
  induction h with
  | start => exact ⟨p.box_fits, fun values => Problem.feasibleIn_box_iff.1⟩
  | splitUp _ hok hv ih =>
    obtain ⟨hfits, hinside⟩ := ih
    obtain ⟨-, -, -, hv⟩ := fractional?_eq_some hv
    have hfeasible := (hrelax.optimal _ _ hfits hok).feasible
    exact ⟨hfits.above .., fun values hin => hinside values ((hfeasible.of_parts hv values).1 hin)⟩
  | splitDown _ hok hv ih =>
    obtain ⟨hfits, hinside⟩ := ih
    obtain ⟨-, -, -, hv⟩ := fractional?_eq_some hv
    have hfeasible := (hrelax.optimal _ _ hfits hok).feasible
    exact ⟨hfits.below .., fun values hin => hinside values ((hfeasible.of_parts hv values).2 hin)⟩

end BranchAndBound

/-! ## How far a row moves -/

/-- Moving the left side by no more than the slack. -/
theorem Comparison.holds_of_abs_sub_le {c : Comparison} {left left' right slack : ℚ}
    (h : c.holds 0 left right) (hmove : |left' - left| ≤ slack) : c.holds slack left' right := by
  obtain ⟨hlow, hhigh⟩ := abs_le.1 hmove
  rw [holds_zero_iff] at h
  cases c with
  | atMost =>
    have hle : left ≤ right := h
    exact decide_eq_true (show left' ≤ right + slack by linarith)
  | equal =>
    have heq : left = right := h
    refine decide_eq_true (show Scalar.abs (left' - right) ≤ slack from ?_)
    rwa [Scalar.abs_eq, ← heq]
  | atLeast =>
    have hle : right ≤ left := h
    exact decide_eq_true (show right ≤ left' + slack by linarith)

/-- Whole sides that are missed by less than one are not missed. -/
theorem Comparison.holds_zero_of_abs_sub_lt {c : Comparison} {left : ℚ} {k l : ℤ}
    (h : c.holds 0 left l) (hmove : |k - left| < 1) : c.holds 0 (k : ℚ) l := by
  obtain ⟨hlow, hhigh⟩ := abs_lt.1 hmove
  rw [holds_zero_iff] at h ⊢
  cases c with
  | atMost =>
    have hle : left ≤ l := h
    have hlt : (k : ℚ) < ((l + 1 : ℤ) : ℚ) := by push_cast; linarith
    exact Int.cast_le.2 (Int.lt_add_one_iff.1 (Int.cast_lt.1 hlt))
  | equal =>
    have heq : left = l := h
    have hlt : (k : ℚ) < ((l + 1 : ℤ) : ℚ) := by push_cast; linarith
    have hgt : (l : ℚ) < ((k + 1 : ℤ) : ℚ) := by push_cast; linarith
    exact congrArg _ (le_antisymm (Int.lt_add_one_iff.1 (Int.cast_lt.1 hlt))
      (Int.lt_add_one_iff.1 (Int.cast_lt.1 hgt)))
  | atLeast =>
    have hle : (l : ℚ) ≤ left := h
    have hlt : (l : ℚ) < ((k + 1 : ℤ) : ℚ) := by push_cast; linarith
    exact Int.cast_le.2 (Int.lt_add_one_iff.1 (Int.cast_lt.1 hlt))

namespace Problem

/-- Whether column `c` has to be whole. -/
def isWhole (p : Problem ℚ) (c : ℕ) : Bool :=
  (p.column? c).any (·.integer)

/-- The sum of the coefficients of columns that have to be whole, all taken as positive. -/
def weight (p : Problem ℚ) (row : Row ℚ) : ℚ :=
  (row.terms.map fun term => if p.isWhole term.1 then |term.2| else 0).sum

/-- Columns that have to be whole are so up to the slack. -/
def NearlyWhole (p : Problem ℚ) (slack : ℚ) (values : List ℚ) : Prop :=
  ∀ q ∈ p.columns.zip values, q.1.integer → |q.2 - Scalar.round q.2| ≤ slack

/-- The row has whole numbers only. -/
def WholeRow (p : Problem ℚ) (row : Row ℚ) : Prop :=
  (∀ term ∈ row.terms, p.isWhole term.1 ∧ ∃ k : ℤ, term.2 = k) ∧ ∃ k : ℤ, row.rhs = k

variable {p : Problem ℚ} {slack : ℚ} {values : List ℚ}

theorem mem_zip_of_valueAt? {c : ℕ} {column : Column ℚ} {v : ℚ}
    (hcolumn : p.column? c = some column) (hv : valueAt? values c = some v) :
    (column, v) ∈ p.columns.zip values := by
  unfold column? at hcolumn
  unfold valueAt? at hv
  split at hcolumn
  · cases hcolumn
  · next hc =>
    rw [if_neg hc] at hv
    exact List.mem_iff_getElem?.2 ⟨c - 1, List.getElem?_zip_eq_some.2 ⟨hcolumn, hv⟩⟩

/-- The value of a column after rounding. -/
theorem valueAt?_settle (hlen : values.length = p.columns.length) (c : ℕ) :
    valueAt? (BranchAndBound.settle p values).values c =
      (valueAt? values c).map fun v => if p.isWhole c then Scalar.round v else v := by
  unfold valueAt? isWhole column?
  split
  · rfl
  · rw [BranchAndBound.settle]
    simp only [List.getElem?_zipWith]
    cases hv : values[c - 1]? with
    | none => cases p.columns[c - 1]? <;> rfl
    | some v =>
      have hc : c - 1 < p.columns.length := hlen ▸ (List.getElem?_eq_some_iff.1 hv).1
      rw [List.getElem?_eq_getElem hc]
      rfl

/-- A column that has to be whole moves by no more than the slack, and others not at all. -/
theorem abs_valueAt?_sub_le (hslack : 0 ≤ slack) (hlen : values.length = p.columns.length)
    (hnear : p.NearlyWhole slack values) (c : ℕ) :
    |(valueAt? (BranchAndBound.settle p values).values c).getD 0 - (valueAt? values c).getD 0| ≤
      if p.isWhole c then slack else 0 := by
  rw [valueAt?_settle hlen]
  cases hv : valueAt? values c with
  | none =>
    simp only [Option.map_none, Option.getD_none, sub_self, abs_zero]
    split
    · exact hslack
    · exact le_rfl
  | some v =>
    simp only [Option.map_some, Option.getD_some]
    split
    · next hwhole =>
      obtain ⟨column, hcolumn, hinteger⟩ := (Option.any_eq_true _ _).1 hwhole
      rw [abs_sub_comm]
      exact hnear (column, v) (mem_zip_of_valueAt? hcolumn hv) hinteger
    · rw [sub_self, abs_zero]

/-- Rounding moves a row by no more than the slack times its weight. -/
theorem abs_activity_sub_le (hslack : 0 ≤ slack) (hlen : values.length = p.columns.length)
    (hnear : p.NearlyWhole slack values) (row : Row ℚ) :
    |row.activity (BranchAndBound.settle p values).values - row.activity values| ≤
      slack * p.weight row := by
  rw [Row.activity_eq_sum, Row.activity_eq_sum, weight]
  induction row.terms with
  | nil => simp
  | cons term terms ih =>
    have hterm := abs_valueAt?_sub_le hslack hlen hnear term.1
    simp only [List.map_cons, List.sum_cons]
    generalize (valueAt? (BranchAndBound.settle p values).values term.1).getD 0 = after at hterm ⊢
    generalize (valueAt? values term.1).getD 0 = before at hterm ⊢
    have hmove : |term.2 * (after - before)| ≤
        slack * if p.isWhole term.1 then |term.2| else 0 := by
      rw [abs_mul]
      split at hterm
      · next hwhole =>
        rw [if_pos hwhole, mul_comm slack]
        exact mul_le_mul_of_nonneg_left hterm (abs_nonneg _)
      · next hwhole =>
        rw [if_neg hwhole, mul_zero, le_antisymm hterm (abs_nonneg _), mul_zero]
    rw [mul_add, add_sub_add_comm, ← mul_sub]
    exact (abs_add_le _ _).trans (add_le_add hmove ih)

theorem exists_valueAt?_settle (hlen : values.length = p.columns.length) {c : ℕ}
    (hwhole : p.isWhole c) :
    ∃ k : ℤ, (valueAt? (BranchAndBound.settle p values).values c).getD 0 = k := by
  rw [valueAt?_settle hlen]
  cases valueAt? values c with
  | none => exact ⟨0, Int.cast_zero.symm⟩
  | some v => exact ⟨Rational.nearest v, if_pos hwhole⟩

/-- A row of whole numbers has a whole left side after rounding. -/
theorem WholeRow.exists_activity {row : Row ℚ} (h : p.WholeRow row)
    (hlen : values.length = p.columns.length) :
    ∃ k : ℤ, row.activity (BranchAndBound.settle p values).values = k := by
  obtain ⟨hterms, -⟩ := h
  rw [Row.activity_eq_sum]
  generalize row.terms = terms at hterms
  induction terms with
  | nil => exact ⟨0, Int.cast_zero.symm⟩
  | cons term terms ih =>
    obtain ⟨⟨hwhole, a, ha⟩, hrest⟩ := List.forall_mem_cons.1 hterms
    obtain ⟨k, hk⟩ := exists_valueAt?_settle hlen hwhole
    obtain ⟨l, hl⟩ := ih hrest
    refine ⟨a * k + l, ?_⟩
    rw [List.map_cons, List.sum_cons, hl, hk, ha]
    push_cast
    rfl

/-! ## Rounded solutions -/

/-- What is left of a solution of the relaxation after rounding. -/
structure Rounded (p : Problem ℚ) (slack : ℚ) (s : Solution ℚ) : Prop where
  length_eq : s.values.length = p.columns.length
  objective_eq : s.objective = p.objectiveAt s.values
  admits : ∀ q ∈ p.columns.zip s.values, q.1.admits slack q.2
  whole : ∀ q ∈ p.columns.zip s.values, q.1.integer → q.2 = Scalar.round q.2
  row : ∀ row ∈ p.rows,
    row.comparison.holds (slack * p.weight row) (row.activity s.values) row.rhs
  wholeRow : ∀ row ∈ p.rows, p.WholeRow row → slack * p.weight row < 1 →
    row.comparison.holds 0 (row.activity s.values) row.rhs
  /-- Rows of small weight or whole numbers are met up to the slack. -/
  satisfied : (∀ row ∈ p.rows,
    p.weight row ≤ 1 ∨ p.WholeRow row ∧ slack * p.weight row < 1) → p.isSatisfiedBy slack s.values

theorem exists_mem_zip_of_settle {q : Column ℚ × ℚ}
    (hq : q ∈ p.columns.zip (BranchAndBound.settle p values).values) :
    ∃ v, (q.1, v) ∈ p.columns.zip values ∧ q.2 = if q.1.integer then Scalar.round v else v := by
  obtain ⟨i, hi⟩ := List.mem_iff_getElem?.1 hq
  obtain ⟨hcolumn, hvalue⟩ := List.getElem?_zip_eq_some.1 hi
  rw [BranchAndBound.settle] at hvalue
  obtain ⟨column, v, hcolumn', hv, heq⟩ := List.getElem?_zipWith_eq_some.1 hvalue
  obtain rfl := Option.some.inj (hcolumn.symm.trans hcolumn')
  exact ⟨v, List.mem_iff_getElem?.2 ⟨i, List.getElem?_zip_eq_some.2 ⟨hcolumn, hv⟩⟩, heq.symm⟩

theorem whole_settle {q : Column ℚ × ℚ}
    (hq : q ∈ p.columns.zip (BranchAndBound.settle p values).values) (hinteger : q.1.integer) :
    q.2 = Scalar.round q.2 := by
  obtain ⟨v, -, hv⟩ := exists_mem_zip_of_settle hq
  rw [if_pos hinteger] at hv
  rw [hv, Scalar.round_round]

/-- Rounding keeps the bounds of columns up to the slack. -/
theorem Feasible.admits_settle (h : p.Feasible values) (hslack : 0 ≤ slack)
    (hnear : p.NearlyWhole slack values) {q : Column ℚ × ℚ}
    (hq : q ∈ p.columns.zip (BranchAndBound.settle p values).values) : q.1.admits slack q.2 := by
  obtain ⟨v, hmem, hv⟩ := exists_mem_zip_of_settle hq
  obtain ⟨hlower, hupper⟩ := h.bounds (q.1, v) hmem
  have hclose : |v - q.2| ≤ slack := by
    rw [hv]
    split
    · next hinteger => exact hnear (q.1, v) hmem hinteger
    · rwa [sub_self, abs_zero]
  obtain ⟨hlow, hhigh⟩ := abs_le.1 hclose
  refine (Column.admits_iff ..).2 ⟨⟨?_, fun u hu => ?_⟩, fun hinteger => ?_⟩
  · linarith
  · have hle := hupper u hu
    linarith
  · rwa [← whole_settle hq hinteger, sub_self, abs_zero]

/-- Rounding keeps rows of whole numbers while it moves them by less than one. -/
theorem Feasible.holds_settle (h : p.Feasible values) (hslack : 0 ≤ slack)
    (hnear : p.NearlyWhole slack values) {row : Row ℚ} (hrow : row ∈ p.rows)
    (hwhole : p.WholeRow row) (hlt : slack * p.weight row < 1) :
    row.comparison.holds 0 (row.activity (BranchAndBound.settle p values).values) row.rhs := by
  have hmove := (abs_activity_sub_le hslack h.length_eq hnear row).trans_lt hlt
  obtain ⟨k, hk⟩ := hwhole.exists_activity h.length_eq
  obtain ⟨l, hl⟩ := hwhole.2
  have hheld := h.rows row hrow
  rw [hl] at hheld ⊢
  rw [hk] at hmove ⊢
  exact Comparison.holds_zero_of_abs_sub_lt hheld hmove

theorem Feasible.rounded (h : p.Feasible values) (hslack : 0 ≤ slack)
    (hnear : p.NearlyWhole slack values) : p.Rounded slack (BranchAndBound.settle p values) := by
  have hlen : (BranchAndBound.settle p values).values.length = p.columns.length := by
    rw [BranchAndBound.settle, List.length_zipWith, h.length_eq, min_self]
  have hmove := abs_activity_sub_le hslack h.length_eq hnear
  refine ⟨hlen, rfl, fun q hq => h.admits_settle hslack hnear hq, fun q hq => whole_settle hq,
    fun row hrow => Comparison.holds_of_abs_sub_le (h.rows row hrow) (hmove row),
    fun row hrow => h.holds_settle hslack hnear hrow, fun hrows => ?_⟩
  simp only [isSatisfiedBy, Bool.and_eq_true, beq_iff_eq, List.all_eq_true]
  refine ⟨⟨hlen, fun q hq => h.admits_settle hslack hnear hq⟩, fun row hrow => ?_⟩
  rcases hrows row hrow with hweight | ⟨hwhole, hlt⟩
  · exact Comparison.holds_of_abs_sub_le (h.rows row hrow)
      ((hmove row).trans (mul_le_of_le_one_right hslack hweight))
  · refine Comparison.holds_of_abs_sub_le (h.holds_settle hslack hnear hrow hwhole hlt) ?_
    rwa [sub_self, abs_zero]

end Problem

namespace BranchAndBound

theorem Settled.rounded {p : Problem ℚ} {slack : ℚ} {relax : Relaxation ℚ} (hrelax : relax.Exact p)
    (hslack : 0 ≤ slack) {s : Solution ℚ} (h : Settled slack (relax p) p s) :
    p.Rounded slack s := by
  obtain ⟨box, relaxed, hbox, hok, hnear, rfl⟩ := h
  obtain ⟨hfits, hinside⟩ := hbox.inside hrelax
  have hfeasible := hinside _ (hrelax.optimal _ _ hfits hok).feasible
  refine hfeasible.rounded hslack fun q hq hinteger => ?_
  rw [← Scalar.abs_eq]
  exact not_lt.1 (hnear q hq hinteger)

/-- **What the search finds is feasible up to rounding.** On doubles, a solution is that of a
relaxation in some part of the box with its nearly whole columns rounded. In exact arithmetic the
columns that have to be whole are whole and keep their bounds up to the slack, a row is missed by at
most the slack times its weight, and a row of whole numbers not at all if this is less than one. -/
theorem solve_rounded (maxIterations : ℕ) (limits : SearchLimits) {slack : ℚ} (hslack : 0 ≤ slack) :
    (∀ (p : Problem Float) (s : Solution Float), solveDoubles maxIterations limits p = .ok s →
      Settled Precision.double.slack (Simplex.solveDoubles maxIterations p) p s) ∧
    ∀ (p : Problem ℚ) (s : Solution ℚ), p.Built →
      solve ⟨⟨0, 0, slack⟩, maxIterations⟩ limits p = .ok s → p.Rounded slack s := by
  refine ⟨fun p s h => settled_of_solveWith h, fun p s hp h => ?_⟩
  have hexact : Relaxation.Exact (Simplex.solveIn ⟨⟨0, 0, slack⟩, maxIterations⟩) p :=
    Simplex.relaxation_exact hp.known maxIterations
  exact (settled_of_solveWith h).rounded hexact hslack

end BranchAndBound

namespace Sample

/-- The largest whole number that stays within the limit when it is multiplied by the factor. -/
def steep {α : Type} [Scalar α] (factor limit : α) : Problem α where
  name := "steep"
  direction := .maximise
  columns := [⟨"x", 0, none, true, 1⟩]
  rows := [⟨[(1, factor)], .atMost, limit, .other, none⟩]

theorem built_steep {α : Type} [Scalar α] (factor limit : α) : (steep factor limit).Built :=
  .addRow (.setObjective (.addColumn (.empty "steep" .maximise) "x" true) 1 1 rfl)
    ⟨[(1, factor)], .atMost, limit, .other, none⟩ rfl

end Sample

namespace BranchAndBound

open Sample in
/-- Two is the largest such number, but the relaxation is within the slack of three, and then the
row is missed by a half. -/
theorem solve_rounded_steep :
    (∃ s, (steep (α := Float) 1000000 2999999.5).Built ∧
      solveDoubles 50 ⟨20, none⟩ (steep 1000000 2999999.5) = .ok s ∧
      Settled Precision.double.slack (Simplex.solveDoubles 50 (steep 1000000 2999999.5))
        (steep 1000000 2999999.5) s ∧ s.values = [3] ∧
      (steep 1000000 2999999.5).isSatisfiedBy Precision.double.slack s.values = false) ∧
    ∃ s, (steep (1000000 : ℚ) (5999999 / 2)).Built ∧
      solve ⟨⟨0, 0, 1 / 1000000⟩, 50⟩ ⟨20, none⟩ (steep 1000000 (5999999 / 2)) = .ok s ∧
      (steep 1000000 (5999999 / 2)).Rounded (1 / 1000000) s ∧ s.values = [3] ∧
      (steep (1000000 : ℚ) (5999999 / 2)).isSatisfiedBy (1 / 1000000) s.values = false := by
  have hslack : (0 : ℚ) ≤ 1 / 1000000 := by norm_num
  have hrounded := solve_rounded 50 ⟨20, none⟩ hslack
  constructor
  · have hsolve : solveDoubles 50 ⟨20, none⟩ (steep 1000000 2999999.5) = .ok ⟨3, [3]⟩ := by
      decide +kernel
    exact ⟨_, built_steep .., hsolve, hrounded.1 _ _ hsolve, rfl, by decide +kernel⟩
  · have hsolve : solve ⟨⟨0, 0, 1 / 1000000⟩, 50⟩ ⟨20, none⟩
        (steep (1000000 : ℚ) (5999999 / 2)) = .ok ⟨3, [3]⟩ := by
      decide +kernel
    exact ⟨_, built_steep .., hsolve, hrounded.2 _ _ (built_steep ..) hsolve, rfl,
      by decide +kernel⟩

end BranchAndBound

end WorstCase
