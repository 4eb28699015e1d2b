import WorstCase.Proofs.Linear.Pivoting

/-!
# The two phases on a tableau

The first phase looks for values at which the artificial variables vanish: the objective that it
loads is zero at such values and negative at all others. It ends with artificial variables in the
basis only where they are zero, and driving them out leaves one only in a row without real variables
(`Tableau.Settled`). Pivots on real variables never touch such a row, so the second phase moves
among values at which the artificial variables vanish.
-/

namespace WorstCase

namespace Tableau

/-- The values solve the tableau, none of them is negative, and the artificial ones are zero. -/
structure Admits (t : Tableau ℚ) (x : ℕ → ℚ) : Prop where
  solves : t.Solves x
  nonneg : ∀ j, 0 ≤ x j
  artificial : ∀ j, t.artificialStart ≤ j → j < t.width → x j = 0

theorem SameSolutions.admits_iff {t t' : Tableau ℚ} (h : t.SameSolutions t') (x : ℕ → ℚ) :
    t'.Admits x ↔ t.Admits x := by
  constructor
  · rintro ⟨hs, hn, ha⟩
    rw [h.start_eq, h.width_eq] at ha
    exact ⟨(h.solves_iff x).1 hs, hn, ha⟩
  · rintro ⟨hs, hn, ha⟩
    refine ⟨(h.solves_iff x).2 hs, hn, ?_⟩
    rwa [h.start_eq, h.width_eq]

/-! ## Loading an objective -/

section load

variable {α : Type} [Scalar α]

/-- Adds the multiple of a row that clears its basic variable from the objective. -/
def loaded (costs : List α) (objective : Equation α) (row : TableauRow α) : Equation α :=
  let cost := costs.getD row.basic 0
  if cost == 0 then objective else objective.addMultiple cost row.equation

/-- The objective of maximising `costs`, with all variables. -/
def rawObjective (width : ℕ) (costs : List α) : Equation α :=
  ⟨(List.range width).map fun j => -costs.getD j 0, 0⟩

theorem length_rawObjective (width : ℕ) (costs : List α) :
    (rawObjective width costs).coefficients.length = width := by
  rw [rawObjective, List.length_map, List.length_range]

/-- Loading an objective takes the basic variables out of it, row by row. -/
theorem objective_loadObjective (t : Tableau α) (costs : List α) :
    (t.loadObjective costs).objective = t.rows.foldl (loaded costs) (rawObjective t.width costs) :=
  rfl

theorem length_loaded (costs : List α) {width : ℕ} {row : TableauRow α} {e : Equation α}
    (hrow : row.equation.coefficients.length = width) (he : e.coefficients.length = width) :
    (loaded costs e row).coefficients.length = width := by
  simp only [loaded]
  split
  · exact he
  · rw [Equation.length_addMultiple _ (hrow.trans he.symm), he]

theorem length_foldl_loaded (costs : List α) {width : ℕ} {rows : List (TableauRow α)}
    (hrows : ∀ row ∈ rows, row.equation.coefficients.length = width) {e : Equation α}
    (he : e.coefficients.length = width) :
    (rows.foldl (loaded costs) e).coefficients.length = width := by
  induction rows generalizing e with
  | nil => exact he
  | cons row rows ih =>
    apply ih fun r hr => hrows r (List.mem_cons_of_mem _ hr)
    exact length_loaded costs (hrows row List.mem_cons_self) he

theorem Shaped.loadObjective {t : Tableau α} (ht : t.Shaped) (costs : List α) :
    (t.loadObjective costs).Shaped where
  row_length := ht.row_length
  basic_lt := ht.basic_lt
  objective_length := length_foldl_loaded costs ht.row_length (length_rawObjective t.width costs)

end load

/-- What is linear in an equation, at the objective after the rows have been added. -/
theorem foldl_loaded {φ : Equation ℚ → ℚ} (hφ : ∀ (e other : Equation ℚ) (factor : ℚ),
      other.coefficients.length = e.coefficients.length →
        φ (e.addMultiple factor other) = φ e + factor * φ other)
    (costs : List ℚ) {width : ℕ} {rows : List (TableauRow ℚ)}
    (hrows : ∀ row ∈ rows, row.equation.coefficients.length = width) {e : Equation ℚ}
    (he : e.coefficients.length = width) : φ (rows.foldl (loaded costs) e) =
      φ e + (rows.map fun row => costs.getD row.basic 0 * φ row.equation).sum := by
  induction rows generalizing e with
  | nil => simp
  | cons row rows ih =>
    have hrest : ∀ r ∈ rows, r.equation.coefficients.length = width := fun r hr =>
      hrows r (List.mem_cons_of_mem _ hr)
    have hlen := (hrows row List.mem_cons_self).trans he.symm
    have hone : φ (loaded costs e row) = φ e + costs.getD row.basic 0 * φ row.equation := by
      by_cases hcost : costs.getD row.basic 0 = 0
      · have hl : loaded costs e row = e := if_pos (beq_iff_eq.2 hcost)
        rw [hl, hcost, zero_mul, add_zero]
      · have hl : loaded costs e row = e.addMultiple (costs.getD row.basic 0) row.equation :=
          if_neg (mt beq_iff_eq.1 hcost)
        rw [hl, hφ _ _ _ hlen]
    have hlen' : (loaded costs e row).coefficients.length = width :=
      length_loaded costs (hrows row List.mem_cons_self) he
    rw [List.foldl_cons, ih hrest hlen', hone, List.map_cons, List.sum_cons, add_assoc]

theorem coefficient_rawObjective (costs : List ℚ) {width j : ℕ} (hj : j < width) :
    (rawObjective width costs).coefficient j = -costs.getD j 0 := by
  rw [Equation.coefficient_eq, rawObjective, List.getD_eq_getElem _ _ (by simpa using hj)]
  simp

/-- What `costs` are at `x`. -/
def costAt (t : Tableau ℚ) (costs : List ℚ) (x : ℕ → ℚ) : ℚ :=
  ∑ j ∈ Finset.range t.width, costs.getD j 0 * x j

/-- Loading an objective leaves the equations alone. -/
theorem sameSolutions_loadObjective (t : Tableau ℚ) (costs : List ℚ) :
    t.SameSolutions (t.loadObjective costs) :=
  ⟨rfl, rfl, fun _ => Iff.rfl⟩

/-- At solutions of the equations, a loaded objective is worth its costs. -/
theorem Shaped.valueAt_loadObjective {t : Tableau ℚ} (ht : t.Shaped) (costs : List ℚ) {x : ℕ → ℚ}
    (hx : t.Solves x) : (t.loadObjective costs).valueAt x = t.costAt costs x := by
  have hraw : (rawObjective t.width costs).gap t.width x = -t.costAt costs x := by
    have hzero : (rawObjective t.width costs).constant = 0 := rfl
    rw [Equation.gap, hzero, sub_zero, costAt, ← Finset.sum_neg_distrib]
    refine Finset.sum_congr rfl fun j hj => ?_
    rw [coefficient_rawObjective costs (Finset.mem_range.1 hj), neg_mul]
  have hsum : (t.rows.map fun row => costs.getD row.basic 0 * row.equation.gap t.width x).sum = 0 :=
    List.sum_eq_zero (List.forall_mem_map.2 fun row hrow => by rw [hx row hrow, mul_zero])
  have hgap := foldl_loaded (φ := fun e => e.gap t.width x)
    (fun e other factor h => Equation.gap_addMultiple t.width factor x h) costs ht.row_length
    (e := rawObjective t.width costs) (length_rawObjective t.width costs)
  have hvalue : (t.loadObjective costs).valueAt x =
      -(t.rows.foldl (loaded costs) (rawObjective t.width costs)).gap t.width x := rfl
  rw [hvalue, hgap, hsum, add_zero, hraw, neg_neg]

theorem Canonical.loadObjective {t : Tableau ℚ} (ht : t.Canonical) (costs : List ℚ) :
    (t.loadObjective costs).Canonical := by
  refine ⟨ht.toShaped.loadObjective costs, ht.own, ht.apart, fun row hrow => ?_⟩
  obtain ⟨a, b, h⟩ := List.append_of_mem (show row ∈ t.rows from hrow)
  have hcoef := foldl_loaded (φ := fun e => e.coefficient row.basic)
    (fun e other factor h => Equation.coefficient_addMultiple factor row.basic h) costs
    ht.row_length (e := rawObjective t.width costs) (length_rawObjective t.width costs)
  rw [objective_loadObjective, hcoef, sum_map_split h, coefficient_rawObjective costs
    (ht.basic_lt row hrow), ht.own row hrow, mul_one, neg_add_cancel]
  intro other ho
  rw [((ht.pairwise_split h).1 other ho).2, mul_zero]

theorem Feasible.loadObjective {t : Tableau ℚ} (ht : t.Feasible) (costs : List ℚ) :
    (t.loadObjective costs).Feasible :=
  ⟨ht.toCanonical.loadObjective costs, ht.nonneg⟩

/-! ## The first phase -/

/-- The objective of the first phase is worth the negated sum of the artificial variables. -/
theorem Shaped.valueAt_loadPhaseOne {t : Tableau ℚ} (ht : t.Shaped) {x : ℕ → ℚ} (hx : t.Solves x) :
    t.loadPhaseOne.valueAt x =
      ∑ j ∈ Finset.range t.width, if t.artificialStart ≤ j then -x j else 0 := by
  have hphase : t.loadPhaseOne = t.loadObjective (List.replicate t.artificialStart (0 : ℚ) ++
    List.replicate (t.width - t.artificialStart) (-1)) := rfl
  rw [hphase, ht.valueAt_loadObjective _ hx, costAt]
  refine Finset.sum_congr rfl fun j hj => ?_
  have hj' := Finset.mem_range.1 hj
  split
  · next hle =>
    rw [List.getD_append_right _ _ _ _ (by simpa using hle), List.length_replicate,
      List.getD_replicate (-1 : ℚ) (by omega), neg_one_mul]
  · next hlt =>
    rw [List.getD_append _ _ _ _ (by simpa using hlt), List.getD_replicate (0 : ℚ) (by omega),
      zero_mul]

theorem Shaped.valueAt_loadPhaseOne_eq_zero {t : Tableau ℚ} (ht : t.Shaped) {x : ℕ → ℚ}
    (hx : t.Admits x) : t.loadPhaseOne.valueAt x = 0 := by
  rw [ht.valueAt_loadPhaseOne hx.solves]
  refine Finset.sum_eq_zero fun j hj => ?_
  split
  · next hle => rw [hx.artificial j hle (Finset.mem_range.1 hj), neg_zero]
  · rfl

/-- If the first phase reaches zero, all artificial variables are zero. -/
theorem Shaped.eq_zero_of_valueAt_loadPhaseOne {t : Tableau ℚ} (ht : t.Shaped) {x : ℕ → ℚ}
    (hx : t.Solves x) (hn : ∀ j, 0 ≤ x j) (hv : 0 ≤ t.loadPhaseOne.valueAt x) {j : ℕ}
    (hle : t.artificialStart ≤ j) (hj : j < t.width) : x j = 0 := by
  rw [ht.valueAt_loadPhaseOne hx] at hv
  have hterm : ∀ i ∈ Finset.range t.width, (if t.artificialStart ≤ i then -x i else 0) ≤ 0 := by
    intro i _
    split
    · exact neg_nonpos.2 (hn i)
    · exact le_rfl
  have hall := (Finset.sum_eq_zero_iff_of_nonpos hterm).1 (le_antisymm (Finset.sum_nonpos hterm) hv)
  have hzero := hall j (Finset.mem_range.2 hj)
  rwa [if_pos hle, neg_eq_zero] at hzero

/-- Artificial variables in the basis are zero. -/
def Idle (t : Tableau ℚ) : Prop :=
  ∀ row ∈ t.rows, row.basic < t.artificialStart ∨ row.equation.constant = 0

theorem Nonneg.constant_le_point {t : Tableau ℚ} (hn : t.Nonneg) {row : TableauRow ℚ}
    (hrow : row ∈ t.rows) : row.equation.constant ≤ t.point row.basic := by
  refine List.single_le_sum (List.forall_mem_map.2 fun other ho => ?_) _
    (List.mem_map.2 ⟨row, hrow, if_pos rfl⟩)
  split
  · exact hn other ho
  · exact le_rfl

/-- An optimum of the first phase shows that no values are admitted, or has idle artificial
variables. -/
theorem Feasible.phaseOne_optimum {t t' : Tableau ℚ} (ht : t.Feasible)
    (hrun : Relation.ReflTransGen (Next 0 t.width) t.loadPhaseOne t')
    (hend : t'.entering? 0 t.width = none) :
    (t'.objective.constant < 0 → ∀ x, ¬ t.Admits x) ∧
      (0 ≤ t'.objective.constant → t'.Feasible ∧ t.SameSolutions t' ∧ t'.Idle) := by
  have hload : t.loadPhaseOne.Feasible := ht.loadObjective _
  obtain ⟨ht', hsame⟩ := hload.run hrun
  have hsol : t.SameSolutions t' := (sameSolutions_loadObjective t _).trans hsame.toSameSolutions
  constructor
  · intro hneg x hx
    have hle := valueAt_le_constant hend hx.nonneg fun j hj hlt =>
      absurd hlt (not_lt.2 (hsol.width_eq ▸ hj))
    rw [hsame.valueAt_eq x hx.solves, ht.valueAt_loadPhaseOne_eq_zero hx] at hle
    exact absurd hneg (not_lt.2 hle)
  · intro hpos
    refine ⟨ht', hsol, fun row hrow => ?_⟩
    rcases lt_or_ge row.basic t'.artificialStart with hlt | hge
    · exact Or.inl hlt
    · -- the value of the point is the constant, so its artificial variables sum up to zero
      have hpoint : t.Solves t'.point := (hsol.solves_iff _).1 ht'.solves_point
      have hvalue : 0 ≤ t.loadPhaseOne.valueAt t'.point := by
        rwa [← hsame.valueAt_eq _ hpoint, ht'.valueAt_point]
      have hzero := ht.eq_zero_of_valueAt_loadPhaseOne hpoint ht'.nonneg.point_nonneg hvalue
        (hsol.start_eq ▸ hge) (hsol.width_eq ▸ ht'.basic_lt row hrow)
      exact Or.inr (le_antisymm (hzero ▸ ht'.nonneg.constant_le_point hrow) (ht'.nonneg row hrow))

/-! ## Driving artificial variables out -/

/-- The row is solved for a real variable or has none. -/
def Driven (start : ℕ) (row : TableauRow ℚ) : Prop :=
  row.basic < start ∨ ∀ j < start, row.equation.coefficient j = 0

/-- A row that has an artificial basic variable says no more than that this one is zero when all
artificial variables are. -/
def Settled (t : Tableau ℚ) : Prop :=
  t.Idle ∧ ∀ row ∈ t.rows, Driven t.artificialStart row

theorem cleared_of_coefficient_eq_zero (source : Equation ℚ) {c : ℕ} {row : TableauRow ℚ}
    (h : row.equation.coefficient c = 0) : cleared 0 source c row = row := by
  rw [cleared, Equation.eliminate_eq, if_pos h]

/-- A row that has been driven stays so when the column of a real variable is cleared in it. -/
theorem Driven.cleared {start : ℕ} {row : TableauRow ℚ} (h : Driven start row)
    (source : Equation ℚ) {c : ℕ} (hc : c < start) :
    Driven start (cleared 0 source c row) := by
  rcases h with hlt | hzero
  · exact Or.inl hlt
  · rw [cleared_of_coefficient_eq_zero source (hzero c hc)]
    exact Or.inr hzero

/-- A row is left alone if there is nothing to drive out, and pivoted at a proper column
otherwise. -/
theorem driveOutRow_cases {t : Tableau ℚ} {a b : List (TableauRow ℚ)} {row : TableauRow ℚ}
    (h : t.rows = a ++ row :: b) :
    (t.driveOutRow 0 a.length = t ∧ Driven t.artificialStart row) ∨
      (t.artificialStart ≤ row.basic ∧
        ∃ c < t.artificialStart, c < row.equation.coefficients.length ∧
          row.equation.coefficient c ≠ 0 ∧ t.driveOutRow 0 a.length = t.pivot 0 a.length c) := by
  have hrow : t.rows[a.length]? = some row := by simp [h]
  have habs : ∀ x : ℚ, (0 : ℚ) < Scalar.abs x ↔ x ≠ 0 := fun x => by rw [Scalar.abs_eq, abs_pos]
  simp only [driveOutRow, hrow]
  split
  · next hlt => exact Or.inl ⟨rfl, Or.inl hlt⟩
  · next hge =>
    split
    · next hnone =>
      refine Or.inl ⟨rfl, Or.inr fun j hj => ?_⟩
      have hle := of_decide_eq_false (Equation.coefficient_of_findIdx?_eq_none hnone rfl hj)
      exact not_not.1 (mt (habs _).2 hle)
    · next c hsome =>
      obtain ⟨hc, hlen, hne⟩ := Equation.coefficient_of_findIdx?_eq_some hsome
      exact Or.inr ⟨not_lt.1 hge, c, hc, hlen, (habs _).1 (of_decide_eq_true hne), rfl⟩

/-- After `n` rows have been looked at, starting from `t`. -/
structure DrivenTo (t : Tableau ℚ) (n : ℕ) (t' : Tableau ℚ) : Prop where
  feasible : t'.Feasible
  same : t.SameSolutions t'
  length_eq : t'.rows.length = t.rows.length
  idle : t'.Idle
  driven : ∀ row ∈ t'.rows.take n, Driven t'.artificialStart row

theorem take_succ_split {ι : Type} {l a b : List ι} {x : ι} {n : ℕ} (h : l = a ++ x :: b)
    (hn : a.length = n) : l.take (n + 1) = a ++ [x] := by
  rw [h, List.append_cons]
  exact List.take_left' (by rw [List.length_append, hn, List.length_singleton])

section idle

variable {t : Tableau ℚ} {a b : List (TableauRow ℚ)} {row : TableauRow ℚ} {c : ℕ}

/-- A pivot on a row whose constant is zero changes no constant, whatever its sign. -/
theorem Feasible.pivot_idle (ht : t.Feasible) (h : t.rows = a ++ row :: b) (hc : c < t.width)
    (hp : row.equation.coefficient c ≠ 0) (hzero : row.equation.constant = 0) :
    (t.pivot 0 a.length c).Feasible := by
  have hratio : row.equation.constant / row.equation.coefficient c = 0 := by
    rw [hzero, zero_div]
  refine ⟨ht.toCanonical.pivot h hc hp, ht.nonneg.pivot h hratio.ge fun other ho hpos => ?_⟩
  rw [hratio]
  exact div_nonneg (ht.nonneg other ho) hpos.le

/-- A pivot in a row whose constant is zero moves nothing. -/
theorem Idle.pivot (ht : t.Idle) (h : t.rows = a ++ row :: b) (hc : c < t.artificialStart)
    (hzero : row.equation.constant = 0) : (t.pivot 0 a.length c).Idle := by
  intro row' hrow'
  rw [artificialStart_pivot]
  rcases (mem_rows_pivot h).1 hrow' with rfl | ⟨other, ho, rfl⟩
  · exact Or.inl hc
  · refine (ht other ((mem_rows_iff h).2 (Or.inr ho))).imp id fun hother => ?_
    rw [cleared, Equation.constant_eliminate, Equation.constant_normalise, hzero, zero_div,
      mul_zero, sub_zero, hother]

end idle

theorem DrivenTo.step {t t' : Tableau ℚ} {n : ℕ} (h : DrivenTo t n t') (hn : n < t.rows.length) :
    DrivenTo t (n + 1) (t'.driveOutRow 0 n) := by
  have hn' : n < t'.rows.length := h.length_eq ▸ hn
  obtain ⟨a, row, b, hrows, rfl⟩ : ∃ a row b, t'.rows = a ++ row :: b ∧ a.length = n :=
    ⟨t'.rows.take n, t'.rows[n], t'.rows.drop (n + 1),
      by rw [← List.drop_eq_getElem_cons hn', List.take_append_drop],
      List.length_take_of_le hn'.le⟩
  have hrow : row ∈ t'.rows := (mem_rows_iff hrows).2 (Or.inl rfl)
  have hdone : ∀ r ∈ a, Driven t'.artificialStart r := by
    have htake : t'.rows.take a.length = a := by rw [hrows, List.take_left]
    exact htake ▸ h.driven
  rcases driveOutRow_cases hrows with ⟨heq, hdriven⟩ | ⟨hge, c, hc, hlen, hne, heq⟩
  · rw [heq]
    refine ⟨h.feasible, h.same, h.length_eq, h.idle, ?_⟩
    rw [take_succ_split hrows rfl]
    exact List.forall_mem_append.2 ⟨hdone, List.forall_mem_singleton.2 hdriven⟩
  · rw [heq]
    have hzero : row.equation.constant = 0 := (h.idle row hrow).resolve_left (not_lt.2 hge)
    rw [h.feasible.row_length row hrow] at hlen
    refine ⟨h.feasible.pivot_idle hrows hlen hne hzero,
      h.same.trans (h.feasible.sameMeaning_pivot hrows hne).toSameSolutions, ?_,
      h.idle.pivot hrows hc hzero, ?_⟩
    · rw [← h.length_eq, rows_pivot hrows, hrows]
      simp only [List.length_append, List.length_cons, List.length_map]
    · -- the rows before this one have no variable left that could come back
      rw [take_succ_split (rows_pivot hrows 0 c) (List.length_map _), artificialStart_pivot]
      refine List.forall_mem_append.2 ⟨List.forall_mem_map.2 fun r hr => ?_,
        List.forall_mem_singleton.2 (Or.inl hc)⟩
      exact (hdone r hr).cleared _ hc

/-- After the first phase, driving out keeps the solutions and leaves artificial variables basic
only in rows that say nothing. -/
theorem Feasible.driveOutArtificials {t : Tableau ℚ} (ht : t.Feasible) (hidle : t.Idle) :
    (t.driveOutArtificials 0).Feasible ∧ t.SameSolutions (t.driveOutArtificials 0) ∧
      (t.driveOutArtificials 0).Settled := by
  have hrun : ∀ n ≤ t.rows.length, DrivenTo t n ((List.range n).foldl (driveOutRow 0) t) := by
    intro n hn
    induction n with
    | zero => exact ⟨ht, ⟨rfl, rfl, fun _ => Iff.rfl⟩, rfl, hidle, by simp⟩
    | succ n ih =>
      rw [List.range_succ, List.foldl_append]
      exact (ih (Nat.le_of_succ_le hn)).step hn
  obtain ⟨hf, hsame, hlen, hidle', hdriven⟩ := hrun t.rows.length le_rfl
  rw [List.take_of_length_le hlen.le] at hdriven
  exact ⟨hf, hsame, hidle', hdriven⟩

/-! ## The second phase -/

/-- No step at a real variable brings an artificial variable back. -/
theorem Settled.next {t t' : Tableau ℚ} (ht : t.Settled) (h : Next 0 t.artificialStart t t') :
    t'.Settled := by
  obtain ⟨c, a, row, b, hc, -, hrows, -, -, rfl⟩ := h.exists_pivot
  refine ⟨fun row' hrow' => ?_, fun row' hrow' => ?_⟩
  · rw [artificialStart_pivot]
    rcases (mem_rows_pivot hrows).1 hrow' with rfl | ⟨other, ho, rfl⟩
    · exact Or.inl hc
    · have hmem : other ∈ t.rows := (mem_rows_iff hrows).2 (Or.inr ho)
      rcases ht.2 other hmem with hlt | hzero
      · exact Or.inl hlt
      · rw [cleared_of_coefficient_eq_zero _ (hzero c hc)]
        exact ht.1 other hmem
  · rw [artificialStart_pivot]
    rcases (mem_rows_pivot hrows).1 hrow' with rfl | ⟨other, ho, rfl⟩
    · exact Or.inl hc
    · exact (ht.2 other ((mem_rows_iff hrows).2 (Or.inr ho))).cleared _ hc

/-- What holds at every tableau that the second phase reaches. -/
theorem Settled.phaseTwo_run {t t' : Tableau ℚ} (ht : t.Settled) (hf : t.Feasible) (costs : List ℚ)
    (h : Relation.ReflTransGen (Next 0 t.artificialStart) (t.loadObjective costs) t') :
    t'.Feasible ∧ t'.Settled ∧ t.SameSolutions t' ∧
      ∀ x, t.Solves x → t'.valueAt x = t.costAt costs x := by
  have hload : (t.loadObjective costs).Feasible := hf.loadObjective costs
  obtain ⟨hf', hsame⟩ := hload.run h
  refine ⟨hf', ?_, (sameSolutions_loadObjective t costs).trans hsame.toSameSolutions,
    fun x hx => ?_⟩
  · clear hf' hsame
    induction h with
    | refl => exact ht
    | tail hrun hnext ih =>
      have hstart : _ = t.artificialStart := (hload.run hrun).2.start_eq
      rw [← hstart] at hnext
      exact ih.next hnext
  · rw [hsame.valueAt_eq x hx, hf.valueAt_loadObjective costs hx]

/-- In a settled tableau the artificial variables are zero. -/
theorem Settled.point_eq_zero {t : Tableau ℚ} (ht : t.Settled) {j : ℕ}
    (hj : t.artificialStart ≤ j) : t.point j = 0 := by
  refine List.sum_eq_zero (List.forall_mem_map.2 fun row hrow => ?_)
  split
  · next heq => exact (ht.1 row hrow).resolve_left (not_lt.2 (heq ▸ hj))
  · rfl

/-- Along the ray of a real variable the artificial variables stay zero. -/
theorem Settled.ray_eq_zero {t : Tableau ℚ} (ht : t.Settled) {c : ℕ} (hc : c < t.artificialStart)
    (s : ℚ) {j : ℕ} (hj : t.artificialStart ≤ j) : t.ray c s j = 0 := by
  have hspread : t.spread (·.equation.coefficient c) j = 0 := by
    refine List.sum_eq_zero (List.forall_mem_map.2 fun row hrow => ?_)
    split
    · next heq => exact (ht.2 row hrow).resolve_left (not_lt.2 (heq ▸ hj)) c hc
    · rfl
  rw [ray, ht.point_eq_zero hj, hspread, if_neg (hc.trans_le hj).ne', sub_zero, mul_zero, add_zero]

/-- The second phase ends at values that cost the most of all that are admitted. -/
theorem Settled.phaseTwo_optimum {t t' : Tableau ℚ} (ht : t.Settled) (hf : t.Feasible)
    (costs : List ℚ)
    (hrun : Relation.ReflTransGen (Next 0 t.artificialStart) (t.loadObjective costs) t')
    (hend : t'.entering? 0 t.artificialStart = none) :
    t.Admits t'.point ∧ ∀ x, t.Admits x → t.costAt costs x ≤ t.costAt costs t'.point := by
  obtain ⟨hf', ht', hsol, hcost⟩ := ht.phaseTwo_run hf costs hrun
  have hpoint : t.Admits t'.point := (hsol.admits_iff _).1
    ⟨hf'.solves_point, hf'.nonneg.point_nonneg, fun j hj _ => ht'.point_eq_zero hj⟩
  refine ⟨hpoint, fun x hx => ?_⟩
  rw [← hcost x hx.solves, ← hcost _ hpoint.solves, hf'.valueAt_point]
  apply valueAt_le_constant hend hx.nonneg
  rw [hsol.width_eq]
  exact hx.artificial

/-- When the second phase finds no limit, there is none. -/
theorem Settled.phaseTwo_unbounded {t t' : Tableau ℚ} (ht : t.Settled) (hf : t.Feasible)
    (costs : List ℚ) {c : ℕ}
    (hrun : Relation.ReflTransGen (Next 0 t.artificialStart) (t.loadObjective costs) t')
    (henter : t'.entering? 0 t.artificialStart = some c) (hleave : t'.leaving? 0 c = none)
    (bound : ℚ) : ∃ x, t.Admits x ∧ bound < t.costAt costs x := by
  obtain ⟨hf', ht', hsol, hcost⟩ := ht.phaseTwo_run hf costs hrun
  obtain ⟨s, hsolves, hnonneg, hbound⟩ := hf'.exists_ray henter hleave bound
  have hc : c < t'.artificialStart := hsol.start_eq ▸ (entering?_eq_some henter).1
  have hray : t.Admits (t'.ray c s) := (hsol.admits_iff _).1
    ⟨hsolves, hnonneg, fun j hj _ => ht'.ray_eq_zero hc s hj⟩
  refine ⟨_, hray, ?_⟩
  rwa [← hcost _ hray.solves]

end Tableau

end WorstCase
