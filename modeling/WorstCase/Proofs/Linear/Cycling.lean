import Mathlib.Data.Finset.Max
import Mathlib.Data.Finset.Powerset
import Mathlib.Data.Nat.Choose.Basic
import WorstCase.Proofs.Linear.Pivoting

/-!
# Pivoting does not cycle

A degenerate pivot changes the basis and nothing else, so the objective alone does not show that
pivoting ends. By the rule of the smallest index no basis comes back (`Tableau.Feasible.basis_ne`),
and since a tableau has finitely many bases, pivoting with enough iterations ends at an optimum or
at a ray (`Tableau.Feasible.bases_nodup_and_iterate_ends`).

The argument looks at a stretch of a run whose ends have the same basis. The objective stays the
same along it, and with it the point. A variable is *fickle* in the stretch when it is in some of
the bases and not in others. The largest fickle variable leaves the basis at one place and enters it
at another. The reduced costs at the second place, taken along the ray at the first, single out a
smaller fickle variable that would have had to leave in its stead.
-/

namespace WorstCase

namespace Tableau

/-! ## Bases -/

/-- The set of the basic variables. -/
def basis {α : Type} (t : Tableau α) : Finset ℕ :=
  (t.rows.map (·.basic)).toFinset

theorem mem_basis {α : Type} {t : Tableau α} {j : ℕ} :
    j ∈ t.basis ↔ ∃ row ∈ t.rows, row.basic = j := by
  rw [basis, List.mem_toFinset, List.mem_map]

/-- No variable is basic in two rows. -/
theorem Canonical.basics_nodup {t : Tableau ℚ} (ht : t.Canonical) :
    (t.rows.map (·.basic)).Nodup := by
  rw [List.Nodup, List.pairwise_map]
  refine ht.apart.imp_of_mem fun {r r'} hr hr' hap heq => ?_
  have hown := ht.own r hr
  rw [heq, hap.1] at hown
  exact zero_ne_one hown

theorem Canonical.row_unique {t : Tableau ℚ} (ht : t.Canonical) {row row' : TableauRow ℚ}
    (hrow : row ∈ t.rows) (hrow' : row' ∈ t.rows) (h : row.basic = row'.basic) : row = row' :=
  List.inj_on_of_nodup_map ht.basics_nodup hrow hrow' h

/-- There are only so many bases: each is a choice of as many variables as there are rows. -/
theorem Canonical.basis_mem_powersetCard {t : Tableau ℚ} (ht : t.Canonical) :
    t.basis ∈ (Finset.range t.width).powersetCard t.rows.length := by
  rw [Finset.mem_powersetCard]
  constructor
  · intro j hj
    obtain ⟨row, hrow, rfl⟩ := mem_basis.1 hj
    exact Finset.mem_range.2 (ht.basic_lt row hrow)
  · rw [basis, List.toFinset_card_of_nodup ht.basics_nodup, List.length_map]

/-- The objective does not mention basic variables. -/
theorem Canonical.coefficient_basis {t : Tableau ℚ} (ht : t.Canonical) {j : ℕ} (hj : j ∈ t.basis) :
    t.objective.coefficient j = 0 := by
  obtain ⟨row, hrow, rfl⟩ := mem_basis.1 hj
  exact ht.reduced row hrow

/-- The value that `f` finds for the row of a basic variable is the one that the variable gets. -/
theorem Canonical.spread_basic {t : Tableau ℚ} (ht : t.Canonical) {row : TableauRow ℚ}
    (hrow : row ∈ t.rows) (f : TableauRow ℚ → ℚ) : t.spread f row.basic = f row := by
  obtain ⟨a, b, h⟩ := List.append_of_mem hrow
  rw [spread, sum_map_split h, if_pos rfl]
  intro other ho
  refine if_neg fun heq => ?_
  have hown := ht.own other ((mem_rows_iff h).2 (Or.inr ho))
  rw [heq, ((ht.pairwise_split h).1 other ho).2] at hown
  exact zero_ne_one hown

theorem spread_eq_zero {t : Tableau ℚ} {j : ℕ} (hj : j ∉ t.basis) (f : TableauRow ℚ → ℚ) :
    t.spread f j = 0 := by
  refine List.sum_eq_zero (List.forall_mem_map.2 fun row hrow => if_neg fun heq => hj ?_)
  exact mem_basis.2 ⟨row, hrow, heq⟩

/-- The point of a tableau is its only solution that is zero outside the basis. -/
theorem Canonical.eq_point {t : Tableau ℚ} (ht : t.Canonical) {x : ℕ → ℚ} (hx : t.Solves x)
    (hzero : ∀ j, j ∉ t.basis → x j = 0) : x = t.point := by
  funext j
  by_cases hj : j ∈ t.basis
  · obtain ⟨row, hrow, rfl⟩ := mem_basis.1 hj
    -- in the row of the variable the other basic variables do not occur, and the rest are zero
    have hsum : ∑ k ∈ Finset.range t.width, row.equation.coefficient k * x k = x row.basic := by
      rw [Finset.sum_eq_single row.basic]
      · rw [ht.own row hrow, one_mul]
      · intro k _ hk
        by_cases hkb : k ∈ t.basis
        · obtain ⟨other, ho, rfl⟩ := mem_basis.1 hkb
          obtain ⟨a, b, h⟩ := List.append_of_mem hrow
          have hab : other ∈ a ++ b :=
            ((mem_rows_iff h).1 ho).resolve_left fun heq => hk (by rw [heq])
          rw [((ht.pairwise_split h).1 other hab).1, zero_mul]
        · rw [hzero k hkb, mul_zero]
      · intro hk
        exact absurd (Finset.mem_range.2 (ht.basic_lt row hrow)) hk
    have hgap := hx row hrow
    rw [Equation.gap, hsum, sub_eq_zero] at hgap
    rw [hgap, point, ht.spread_basic hrow]
  · rw [hzero j hj, point, spread_eq_zero hj]

/-! ## What a pivot does to the basis -/

/-- No variable before the entering one could improve the objective. -/
theorem entering?_first {t : Tableau ℚ} {allowed c : ℕ} (h : t.entering? 0 allowed = some c) {j : ℕ}
    (hj : j < c) : 0 ≤ t.objective.coefficient j := by
  obtain ⟨hlt, -, hbefore⟩ := List.findIdx?_eq_some_iff_getElem.1 h
  have hge := hbefore j hj
  rw [List.length_take, lt_min_iff] at hlt
  rw [List.getElem_take, decide_eq_true_iff, neg_zero, not_lt] at hge
  rwa [Equation.coefficient_eq, List.getD_eq_getElem _ _ (hj.trans hlt.2)]

/-- A pivot by the rules lets `enter` into the basis in place of `leave`, which is basic in
`row`. -/
structure Swap (t t' : Tableau ℚ) (enter leave : ℕ) (row : TableauRow ℚ) : Prop where
  enter_lt : enter < t.width
  reduced_neg : t.objective.coefficient enter < 0
  first : ∀ j < enter, 0 ≤ t.objective.coefficient j
  row_mem : row ∈ t.rows
  basic_eq : row.basic = leave
  limits : 0 < row.equation.coefficient enter
  tightest : ∀ other ∈ t.rows, 0 < other.equation.coefficient enter →
    ratio row enter < ratio other enter ∨
      (ratio row enter = ratio other enter ∧ leave ≤ other.basic)
  basis_iff : ∀ j, j ∈ t'.basis ↔ j = enter ∨ (j ∈ t.basis ∧ j ≠ leave)
  constant_eq : t'.objective.constant =
    t.objective.constant - t.objective.coefficient enter * ratio row enter

/-- A pivot takes one variable into the basis and another one out of it. -/
theorem basis_pivot {t : Tableau ℚ} (ht : t.Canonical) {a b : List (TableauRow ℚ)}
    {row : TableauRow ℚ} (h : t.rows = a ++ row :: b) (c j : ℕ) :
    j ∈ (t.pivot 0 a.length c).basis ↔ j = c ∨ (j ∈ t.basis ∧ j ≠ row.basic) := by
  have hne : ∀ other ∈ a ++ b, other.basic ≠ row.basic := fun other ho heq => by
    have hown := ht.own other ((mem_rows_iff h).2 (Or.inr ho))
    rw [heq, ((ht.pairwise_split h).1 other ho).2] at hown
    exact zero_ne_one hown
  rw [mem_basis, mem_basis]
  constructor
  · rintro ⟨row', hrow', rfl⟩
    rcases (mem_rows_pivot h).1 hrow' with rfl | ⟨other, ho, rfl⟩
    · exact Or.inl rfl
    · exact Or.inr ⟨⟨other, (mem_rows_iff h).2 (Or.inr ho), rfl⟩, hne other ho⟩
  · rintro (rfl | ⟨⟨other, ho, rfl⟩, hj⟩)
    · exact ⟨_, (mem_rows_pivot h).2 (Or.inl rfl), rfl⟩
    · have hab := ((mem_rows_iff h).1 ho).resolve_left fun heq => hj (by rw [heq])
      exact ⟨_, (mem_rows_pivot h).2 (Or.inr ⟨other, hab, rfl⟩), rfl⟩

/-- Each step of the simplex method swaps two variables. -/
theorem Feasible.exists_swap {t t' : Tableau ℚ} {allowed : ℕ} (ht : t.Feasible)
    (h : Next 0 allowed t t') : ∃ enter leave row, Swap t t' enter leave row := by
  obtain ⟨c, r, henter, hleave, rfl⟩ := h
  obtain ⟨-, hc, hneg⟩ := entering?_eq_some henter
  obtain ⟨l, rfl, ⟨a, row, b, hrows, ha, hbasic, hratio, hpos⟩, hleast⟩ := leaving?_eq_some hleave
  rw [ht.objective_length] at hc
  rw [← ha]
  refine ⟨c, row.basic, row, hc, hneg, fun j => entering?_first henter,
    (mem_rows_iff hrows).2 (Or.inl rfl), rfl, hpos, ?_, basis_pivot ht.toCanonical hrows c, ?_⟩
  · rw [hbasic, hratio]
    exact hleast
  · rw [objective_pivot hrows, Equation.constant_eliminate, Equation.constant_normalise]
    rfl

namespace Swap

variable {enter leave : ℕ} {t t' : Tableau ℚ} {row : TableauRow ℚ}

theorem enter_notMem (h : Swap t t' enter leave row) (ht : t.Canonical) :
    enter ∉ t.basis := fun hmem =>
  h.reduced_neg.ne (ht.coefficient_basis hmem)

theorem enter_mem (h : Swap t t' enter leave row) : enter ∈ t'.basis :=
  (h.basis_iff enter).2 (Or.inl rfl)

theorem ratio_nonneg (h : Swap t t' enter leave row) (ht : t.Feasible) :
    0 ≤ ratio row enter :=
  div_nonneg (ht.nonneg row h.row_mem) h.limits.le

theorem constant_le (h : Swap t t' enter leave row) (ht : t.Feasible) :
    t.objective.constant ≤ t'.objective.constant := by
  have hprod : t.objective.coefficient enter * ratio row enter ≤ 0 :=
    mul_nonpos_of_nonpos_of_nonneg h.reduced_neg.le (h.ratio_nonneg ht)
  rw [h.constant_eq]
  linarith

/-- A pivot that does not raise the objective leaves the point where it is. -/
theorem point_eq (h : Swap t t' enter leave row) (ht : t.Feasible) (ht' : t'.Canonical)
    (hsame : t.SameMeaning t') (hle : t'.objective.constant ≤ t.objective.constant) :
    t'.point = t.point := by
  have hratio : ratio row enter = 0 := by
    have hprod : t.objective.coefficient enter * ratio row enter = 0 := by
      have heq := le_antisymm hle (h.constant_le ht)
      rw [h.constant_eq] at heq
      linarith
    exact (mul_eq_zero.1 hprod).resolve_left h.reduced_neg.ne
  have hconstant : row.equation.constant = 0 := by
    rwa [ratio, div_eq_zero_iff, or_iff_left h.limits.ne'] at hratio
  refine (ht'.eq_point ((hsame.solves_iff _).2 ht.solves_point) fun j hj => ?_).symm
  -- what is no longer basic was not basic before, or it has left with the value zero
  by_cases hjt : j ∈ t.basis
  · have hleave : j = leave := by
      by_contra hne
      exact hj ((h.basis_iff j).2 (Or.inr ⟨hjt, hne⟩))
    rw [hleave, ← h.basic_eq, point, ht.spread_basic h.row_mem, hconstant]
  · rw [point, spread_eq_zero hjt]

end Swap

/-! ## Stretches that come back to their basis -/

section stretch

variable {allowed : ℕ} {t t' : Tableau ℚ}

theorem length_rows_of_run {α : Type} [Scalar α] {tiny : α} {t t' : Tableau α}
    (h : Relation.ReflTransGen (Next tiny allowed) t t') : t'.rows.length = t.rows.length := by
  induction h with
  | refl => rfl
  | tail _ hnext ih =>
    obtain ⟨c, r, -, -, rfl⟩ := hnext
    rw [← ih, pivot]
    split
    · rfl
    · exact List.length_mapIdx

/-- No run makes the objective worse. -/
theorem Feasible.constant_le_of_run (ht : t.Feasible)
    (h : Relation.ReflTransGen (Next 0 allowed) t t') :
    t.objective.constant ≤ t'.objective.constant := by
  induction h with
  | refl => exact le_rfl
  | tail hrun hnext ih =>
    have hu := (ht.run hrun).1
    obtain ⟨enter, leave, row, hswap⟩ := hu.exists_swap hnext
    exact ih.trans (hswap.constant_le hu)

/-- A run that does not improve the objective stays where it is. -/
theorem Feasible.point_eq_of_run (ht : t.Feasible)
    (h : Relation.ReflTransGen (Next 0 allowed) t t')
    (hle : t'.objective.constant ≤ t.objective.constant) : t'.point = t.point := by
  induction h with
  | refl => rfl
  | @tail u v hrun hnext ih =>
    have hu := (ht.run hrun).1
    obtain ⟨hv, hsame⟩ := hu.next hnext
    obtain ⟨enter, leave, row, hswap⟩ := hu.exists_swap hnext
    have htu : t.objective.constant ≤ u.objective.constant := ht.constant_le_of_run hrun
    have huv : u.objective.constant ≤ v.objective.constant := hswap.constant_le hu
    rw [hswap.point_eq hu hv.toCanonical hsame (hle.trans htu), ih (huv.trans hle)]

/-- Where the same basis comes back, nothing but the basis has changed in between. -/
theorem Feasible.constant_eq_of_basis_eq (ht : t.Feasible)
    (h : Relation.ReflTransGen (Next 0 allowed) t t') (hbasis : t'.basis = t.basis) :
    t'.objective.constant = t.objective.constant := by
  obtain ⟨ht', hsame⟩ := ht.run h
  have hpoint : t.point = t'.point := by
    refine ht'.eq_point ((hsame.solves_iff _).2 ht.solves_point) fun j hj => ?_
    rw [point, spread_eq_zero (hbasis ▸ hj)]
  rw [← ht'.valueAt_point, ← hpoint, hsame.valueAt_eq _ ht.solves_point, ht.valueAt_point]

/-- `u` comes between `t` and `t'` in a run. -/
def Between (allowed : ℕ) (t t' u : Tableau ℚ) : Prop :=
  Relation.ReflTransGen (Next 0 allowed) t u ∧ Relation.ReflTransGen (Next 0 allowed) u t'

/-- All along a cycle the point is the same: only the basis changes. -/
theorem Feasible.of_between (ht : t.Feasible) (hbasis : t'.basis = t.basis) {u : Tableau ℚ}
    (hu : Between allowed t t' u) : u.Feasible ∧ t.SameMeaning u ∧ u.point = t.point := by
  obtain ⟨htu, hut⟩ := hu
  obtain ⟨hfu, hsame⟩ := ht.run htu
  have hends := ht.constant_eq_of_basis_eq (htu.trans hut) hbasis
  exact ⟨hfu, hsame, ht.point_eq_of_run htu ((hfu.constant_le_of_run hut).trans hends.le)⟩

/-- A property that is lost along a run is lost in one of its steps. -/
theorem exists_step_of_run {P : Tableau ℚ → Prop} (h : Relation.ReflTransGen (Next 0 allowed) t t')
    (ht : P t) (ht' : ¬ P t') : ∃ u v, Relation.ReflTransGen (Next 0 allowed) t u ∧
      Next 0 allowed u v ∧ Relation.ReflTransGen (Next 0 allowed) v t' ∧ P u ∧ ¬ P v := by
  induction h with
  | refl => exact absurd ht ht'
  | @tail u v hrun hnext ih =>
    by_cases hu : P u
    · exact ⟨u, v, hrun, hnext, .refl, hu, ht'⟩
    · obtain ⟨w, x, hw, hwx, hx, hpw, hpx⟩ := ih hu
      exact ⟨w, x, hw, hwx, hx.tail hnext, hpw, hpx⟩

/-- The variable is basic in some tableau of the stretch and not in another. -/
def Fickle (allowed : ℕ) (t t' : Tableau ℚ) (j : ℕ) : Prop :=
  (∃ u, Between allowed t t' u ∧ j ∈ u.basis) ∧ ∃ u, Between allowed t t' u ∧ j ∉ u.basis

/-- In a stretch that comes back to its basis, a fickle variable both leaves and enters. -/
theorem Fickle.exists_steps {j : ℕ} (hj : Fickle allowed t t' j) (hbasis : t'.basis = t.basis) :
    (∃ u v, Between allowed t t' u ∧ Between allowed t t' v ∧ Next 0 allowed u v ∧
      j ∈ u.basis ∧ j ∉ v.basis) ∧
    ∃ u v, Between allowed t t' u ∧ Between allowed t t' v ∧ Next 0 allowed u v ∧
      j ∉ u.basis ∧ j ∈ v.basis := by
  obtain ⟨⟨x, ⟨htx, hxt⟩, hx⟩, y, ⟨hty, hyt⟩, hy⟩ := hj
  by_cases hjt : j ∈ t.basis
  · -- it leaves on the way to `y` and is back at the end
    obtain ⟨u, v, htu, huv, hvy, hu, hv⟩ := exists_step_of_run (P := (j ∈ ·.basis)) hty hjt hy
    obtain ⟨u', v', hyu, huv', hvt, hu', hv'⟩ :=
      exists_step_of_run (P := (j ∉ ·.basis)) hyt hy (by rw [hbasis]; exact not_not.2 hjt)
    exact ⟨⟨u, v, ⟨htu, (hvy.head huv).trans hyt⟩, ⟨htu.tail huv, hvy.trans hyt⟩, huv, hu, hv⟩,
      u', v', ⟨hty.trans hyu, hvt.head huv'⟩, ⟨(hty.trans hyu).tail huv', hvt⟩, huv', hu',
      not_not.1 hv'⟩
  · -- it enters on the way to `x` and is out again at the end
    obtain ⟨u, v, htu, huv, hvx, hu, hv⟩ :=
      exists_step_of_run (P := (j ∉ ·.basis)) htx hjt (not_not.2 hx)
    obtain ⟨u', v', hxu, huv', hvt, hu', hv'⟩ :=
      exists_step_of_run (P := (j ∈ ·.basis)) hxt hx (by rw [hbasis]; exact hjt)
    exact ⟨⟨u', v', ⟨htx.trans hxu, hvt.head huv'⟩, ⟨(htx.trans hxu).tail huv', hvt⟩, huv', hu',
      hv'⟩, u, v, ⟨htu, (hvx.head huv).trans hxt⟩, ⟨htu.tail huv, hvx.trans hxt⟩, huv, hu,
      not_not.1 hv⟩

theorem Fickle.lt_width {j : ℕ} (ht : t.Feasible) (hj : Fickle allowed t t' j) : j < t.width := by
  obtain ⟨⟨u, ⟨htu, -⟩, hu⟩, -⟩ := hj
  obtain ⟨hfu, hsame⟩ := ht.run htu
  obtain ⟨row, hrow, rfl⟩ := mem_basis.1 hu
  exact hsame.width_eq ▸ hfu.basic_lt row hrow

/-- Where there are fickle variables, there is a last one. -/
theorem exists_largest_fickle (ht : t.Feasible) {j : ℕ} (hj : Fickle allowed t t' j) :
    ∃ k, Fickle allowed t t' k ∧ ∀ i, Fickle allowed t t' i → i ≤ k := by
  classical
  obtain ⟨k, hk, hmax⟩ := ((Finset.range t.width).filter (Fickle allowed t t')).exists_max_image id
    ⟨j, Finset.mem_filter.2 ⟨Finset.mem_range.2 (hj.lt_width ht), hj⟩⟩
  refine ⟨k, (Finset.mem_filter.1 hk).2, fun i hi => hmax i ?_⟩
  exact Finset.mem_filter.2 ⟨Finset.mem_range.2 (hi.lt_width ht), hi⟩

/-- Two tableaux with the same meaning have reduced costs that agree along every ray. -/
theorem Feasible.reduced_along_ray {u w : Tableau ℚ} (hu : u.Feasible) (hsame : u.SameMeaning w)
    {c : ℕ} (hc : c < u.width) : u.objective.coefficient c = w.objective.coefficient c -
      (u.rows.map fun row =>
        w.objective.coefficient row.basic * row.equation.coefficient c).sum := by
  have hray : w.valueAt (u.ray c 1) = u.valueAt (u.ray c 1) :=
    hsame.valueAt_eq _ (hu.solves_ray hc 1)
  have hpoint : w.valueAt u.point = u.valueAt u.point := hsame.valueAt_eq _ hu.solves_point
  rw [hu.valueAt_ray hc, one_mul, valueAt, hsame.width_eq, gap_ray u hc, one_mul,
    hu.sum_mul_spread] at hray
  rw [hu.valueAt_point, valueAt, hsame.width_eq] at hpoint
  linarith

/-- A variable that enters at `u` although its reduced cost at `w` is not negative has a row at `u`
whose share in that cost is positive. -/
theorem Swap.exists_share {u u' w : Tableau ℚ} {s k : ℕ} {row : TableauRow ℚ}
    (h : Swap u u' s k row) (hu : u.Feasible) (hsame : u.SameMeaning w)
    (hw : 0 ≤ w.objective.coefficient s) : ∃ other ∈ u.rows,
      0 < w.objective.coefficient other.basic * other.equation.coefficient s := by
  by_contra! hnone
  have hsum : (u.rows.map fun row =>
      w.objective.coefficient row.basic * row.equation.coefficient s).sum ≤ 0 :=
    (List.sum_le_card_nsmul _ 0 (List.forall_mem_map.2 hnone)).trans_eq (nsmul_zero _)
  have hneg := h.reduced_neg
  rw [hu.reduced_along_ray hsame h.enter_lt] at hneg
  linarith

/-- Of the rows that limit the entering variable, none at zero has a smaller basic variable than the
one that leaves. -/
theorem Swap.leave_le {u u' : Tableau ℚ} {s k : ℕ} {row other : TableauRow ℚ}
    (h : Swap u u' s k row) (hu : u.Feasible) (ho : other ∈ u.rows)
    (hpos : 0 < other.equation.coefficient s) (hzero : u.point other.basic = 0) :
    k ≤ other.basic := by
  have hratio : ratio other s = 0 := by
    rw [point, hu.spread_basic ho] at hzero
    rw [ratio, hzero, zero_div]
  rcases h.tightest other ho hpos with hless | ⟨-, hle⟩
  · rw [hratio] at hless
    exact absurd hless (not_lt.2 (h.ratio_nonneg hu))
  · exact hle

/-- The first variable to enter is a fickle one, so that a run of one step or more has one. -/
theorem Feasible.exists_fickle (ht : t.Feasible) (h : Relation.TransGen (Next 0 allowed) t t') :
    ∃ j, Fickle allowed t t' j := by
  obtain ⟨first, hfirst, hrest⟩ := Relation.TransGen.head'_iff.1 h
  obtain ⟨enter, leave, row, hswap⟩ := ht.exists_swap hfirst
  refine ⟨enter, ⟨first, ⟨.single hfirst, hrest⟩, hswap.enter_mem⟩, t, ⟨.refl, ?_⟩, ?_⟩
  · exact h.to_reflTransGen
  · exact hswap.enter_notMem ht.toCanonical

/-- **The smallest index rule does not cycle.** The basis after any number of pivots, but at least
one, is another one. -/
theorem Feasible.basis_ne (ht : t.Feasible) (h : Relation.TransGen (Next 0 allowed) t t') :
    t'.basis ≠ t.basis := by
  intro hbasis
  obtain ⟨j, hj⟩ := ht.exists_fickle h
  obtain ⟨k, hk, hlargest⟩ := exists_largest_fickle ht hj
  obtain ⟨⟨u, u', hbu, hbu', hnextu, hku, hku'⟩, w, w', hbw, -, hnextw, hkw, hkw'⟩ :=
    hk.exists_steps hbasis
  obtain ⟨hu, hmeanu, hpointu⟩ := ht.of_between hbasis hbu
  obtain ⟨hw, hmeanw, hpointw⟩ := ht.of_between hbasis hbw
  -- at `u` the variable `s` enters and `k` leaves
  obtain ⟨s, leave, row, hswapu⟩ := hu.exists_swap hnextu
  obtain rfl : k = leave := by
    by_contra hne
    exact hku' ((hswapu.basis_iff k).2 (Or.inr ⟨hku, hne⟩))
  -- at `w` the variable `k` enters
  obtain ⟨enter, leave', row', hswapw⟩ := hw.exists_swap hnextw
  obtain rfl : k = enter :=
    ((hswapw.basis_iff k).1 hkw').resolve_right fun hout => hkw hout.1
  have hsout := hswapu.enter_notMem hu.toCanonical
  have hsk : s < k := by
    refine lt_of_le_of_ne (hlargest s ⟨⟨u', hbu', hswapu.enter_mem⟩, u, hbu, hsout⟩) ?_
    exact fun heq => hsout (heq ▸ hku)
  obtain ⟨other, ho, hshare⟩ :=
    hswapu.exists_share hu (hmeanu.symm.trans hmeanw) (hswapw.first s hsk)
  have hout : other.basic ∉ w.basis := fun hmem => by
    rw [hw.coefficient_basis hmem, zero_mul] at hshare
    exact lt_irrefl 0 hshare
  have hin : other.basic ∈ u.basis := mem_basis.2 ⟨other, ho, rfl⟩
  rcases (hlargest other.basic ⟨⟨u, hbu, hin⟩, w, hbw, hout⟩).lt_or_eq with hlt | heq
  · -- a smaller variable at zero limits `s` as well, so `k` was not the one to leave
    have hpos : 0 < other.equation.coefficient s :=
      lt_of_mul_lt_mul_left (by rwa [mul_zero]) (hswapw.first _ hlt)
    have hzero : u.point other.basic = 0 := by
      rw [hpointu, ← hpointw, point, spread_eq_zero hout]
    exact absurd hlt (not_lt.2 (hswapu.leave_le hu ho hpos hzero))
  · -- the row of `k` itself has a share of the other sign
    obtain rfl : other = row := hu.row_unique ho hswapu.row_mem (heq.trans hswapu.basic_eq.symm)
    rw [heq] at hshare
    exact absurd hshare (not_lt.2 (mul_nonpos_of_nonpos_of_nonneg hswapw.reduced_neg.le
      hswapu.limits.le))

end stretch

/-! ## The bases of a run -/

section trail

variable {α : Type} [Scalar α]

/-- The tableaux that `iterate` goes through in at most `n` pivots, the first one included. -/
def trail (tiny : α) (allowed : ℕ) : ℕ → Tableau α → List (Tableau α)
  | 0, t => [t]
  | n + 1, t =>
    match t.entering? tiny allowed with
    | none => [t]
    | some column =>
      match t.leaving? tiny column with
      | none => [t]
      | some r => t :: trail tiny allowed n (t.pivot tiny r column)

theorem trail_eq_cons (tiny : α) (allowed n : ℕ) (t : Tableau α) :
    ∃ rest, t.trail tiny allowed n = t :: rest := by
  fun_cases trail tiny allowed n t
  · exact ⟨_, rfl⟩
  · exact ⟨_, rfl⟩
  · exact ⟨_, rfl⟩
  · exact ⟨_, rfl⟩

/-- The outcome of `iterate` is read off the tableaux it goes through: it ends at the last of them,
or it has made all its pivots. -/
theorem iterate_cases_trail (tiny : α) (allowed n : ℕ) (t : Tableau α) :
    (∃ t', t.iterate tiny allowed n = .ok t' ∧ (t.trail tiny allowed n).getLast? = some t' ∧
      t'.entering? tiny allowed = none) ∨
    (t.iterate tiny allowed n = .error .unbounded ∧ ∃ t' c,
      (t.trail tiny allowed n).getLast? = some t' ∧ t'.entering? tiny allowed = some c ∧
        t'.leaving? tiny c = none) ∨
    (t.iterate tiny allowed n = .error .numericalFailure ∧
      (t.trail tiny allowed n).length = n + 1) := by
  induction n generalizing t with
  | zero => exact Or.inr (Or.inr ⟨rfl, rfl⟩)
  | succ n ih =>
    cases henter : t.entering? tiny allowed with
    | none =>
      simp only [iterate, trail, henter]
      exact Or.inl ⟨t, rfl, rfl, henter⟩
    | some column =>
      cases hleave : t.leaving? tiny column with
      | none =>
        simp only [iterate, trail, henter, hleave]
        exact Or.inr (Or.inl ⟨trivial, t, column, rfl, henter, hleave⟩)
      | some r =>
        simp only [iterate, trail, henter, hleave]
        have hlast : ∀ u, (t :: (t.pivot tiny r column).trail tiny allowed n).getLast? = some u ↔
            ((t.pivot tiny r column).trail tiny allowed n).getLast? = some u := by
          obtain ⟨rest, hrest⟩ := trail_eq_cons tiny allowed n (t.pivot tiny r column)
          intro u
          rw [hrest, List.getLast?_cons_cons]
        simp only [hlast, List.length_cons, Nat.add_right_cancel_iff]
        exact ih (t.pivot tiny r column)

/-- Along a trail each tableau is one step from the one before. -/
theorem isChain_trail (tiny : α) (allowed n : ℕ) (t : Tableau α) :
    (t.trail tiny allowed n).IsChain (Next tiny allowed) := by
  induction n generalizing t with
  | zero => exact .singleton t
  | succ n ih =>
    simp only [trail]
    split
    · exact .singleton t
    · next column henter =>
      split
      · exact .singleton t
      · next r hleave =>
        have hchain := ih (t.pivot tiny r column)
        obtain ⟨rest, hrest⟩ := trail_eq_cons tiny allowed n (t.pivot tiny r column)
        rw [hrest] at hchain ⊢
        exact hchain.cons_cons ⟨column, r, henter, hleave, rfl⟩

end trail

theorem pairwise_trail (allowed n : ℕ) (t : Tableau ℚ) :
    (t.trail 0 allowed n).Pairwise (Relation.TransGen (Next 0 allowed)) :=
  ((isChain_trail 0 allowed n t).imp fun _ _ h => .single h).pairwise

theorem run_of_mem_trail {allowed n : ℕ} {t u : Tableau ℚ} (h : u ∈ t.trail 0 allowed n) :
    Relation.ReflTransGen (Next 0 allowed) t u := by
  have hpairs := pairwise_trail allowed n t
  obtain ⟨rest, hrest⟩ := trail_eq_cons 0 allowed n t
  rw [hrest] at h hpairs
  rcases List.mem_cons.1 h with rfl | hu
  · exact .refl
  · exact (List.rel_of_pairwise_cons hpairs hu).to_reflTransGen

/-- Bland's rule comes to no basis twice. -/
theorem Feasible.nodup_bases {t : Tableau ℚ} (ht : t.Feasible) (allowed n : ℕ) :
    ((t.trail 0 allowed n).map basis).Nodup := by
  rw [List.Nodup, List.pairwise_map]
  refine (pairwise_trail allowed n t).imp_of_mem fun {u v} hu _ h heq => ?_
  exact (ht.run (run_of_mem_trail hu)).1.basis_ne h heq.symm

/-- Different bases are different sets of as many variables as there are rows. -/
theorem Feasible.length_trail_le {t : Tableau ℚ} (ht : t.Feasible) (allowed n : ℕ) :
    (t.trail 0 allowed n).length ≤ t.width.choose t.rows.length := by
  have hsub : ((t.trail 0 allowed n).map basis).toFinset ⊆
      (Finset.range t.width).powersetCard t.rows.length := by
    intro B hB
    obtain ⟨u, hu, rfl⟩ := List.mem_map.1 (List.mem_toFinset.1 hB)
    have hrun := run_of_mem_trail hu
    obtain ⟨hfu, hsame⟩ := ht.run hrun
    have hmem := hfu.basis_mem_powersetCard
    rwa [hsame.width_eq, length_rows_of_run hrun] at hmem
  have hcard := Finset.card_le_card hsub
  rwa [List.toFinset_card_of_nodup (ht.nodup_bases allowed n), List.length_map,
    Finset.card_powersetCard, Finset.card_range] at hcard

/-- **Pivoting does not cycle.** From a feasible basis, pivoting never comes to a basis twice. So
there are no more pivots than there are choices of as many variables as rows, and with that many
iterations it ends at the last tableau that it comes to, which is optimal or has a ray. -/
theorem Feasible.bases_nodup_and_iterate_ends {t : Tableau ℚ} (ht : t.Feasible) (allowed : ℕ) :
    (∀ n, ((t.trail 0 allowed n).map basis).Nodup) ∧
      ∀ n, t.width.choose t.rows.length ≤ n →
        (∃ t', t.iterate 0 allowed n = .ok t' ∧ (t.trail 0 allowed n).getLast? = some t' ∧
          t'.entering? 0 allowed = none) ∨
        (t.iterate 0 allowed n = .error .unbounded ∧ ∃ t' c,
          (t.trail 0 allowed n).getLast? = some t' ∧ t'.entering? 0 allowed = some c ∧
            t'.leaving? 0 c = none) := by
  refine ⟨ht.nodup_bases allowed, fun n hn => ?_⟩
  rcases iterate_cases_trail 0 allowed n t with hok | hray | ⟨-, hlen⟩
  · exact Or.inl hok
  · exact Or.inr hray
  · have hle := ht.length_trail_le allowed n
    omega

end Tableau

namespace Sample

/-- A degenerate tableau on which pivoting by the most negative reduced cost comes back to its first
basis after six pivots. -/
def degenerate : Tableau ℚ where
  rows := [⟨⟨[1/4, -8, -1, 9, 1, 0, 0], 0⟩, 4⟩, ⟨⟨[1/2, -12, -1/2, 3, 0, 1, 0], 0⟩, 5⟩,
    ⟨⟨[0, 0, 1, 0, 0, 0, 1], 1⟩, 6⟩]
  objective := ⟨[-3/4, 20, -1/2, 6, 0, 0, 0], 0⟩
  width := 7
  artificialStart := 7

/-- The degenerate tableau has a feasible basis, with a constant of zero. -/
theorem feasible_degenerate : degenerate.Feasible where
  row_length := by decide
  basic_lt := by decide
  objective_length := rfl
  own := by decide +kernel
  apart := by
    unfold Tableau.Apart
    decide +kernel
  reduced := by decide +kernel
  nonneg := by
    unfold Tableau.Nonneg
    decide +kernel

end Sample

namespace Tableau

open Sample in
/-- The degenerate tableau has an optimum, and pivoting comes to it. -/
theorem bases_nodup_and_iterate_ends_degenerate : degenerate.Feasible ∧
    ((degenerate.trail 0 7 10).map basis).Nodup ∧
    ∃ t', degenerate.iterate 0 7 35 = .ok t' ∧ (degenerate.trail 0 7 35).getLast? = some t' ∧
      t'.entering? 0 7 = none := by
  obtain ⟨hnodup, hends⟩ := feasible_degenerate.bases_nodup_and_iterate_ends 7
  refine ⟨feasible_degenerate, hnodup 10, (hends 35 (by decide)).resolve_right ?_⟩
  rintro ⟨hray, -⟩
  have hok : (degenerate.iterate 0 7 35).toOption.isSome := by decide +kernel
  rw [hray] at hok
  cases hok

end Tableau

end WorstCase
