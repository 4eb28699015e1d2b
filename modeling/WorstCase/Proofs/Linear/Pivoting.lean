import Mathlib.Algebra.Order.Archimedean.Basic
import Mathlib.Algebra.Order.BigOperators.Group.Finset
import Mathlib.Data.List.Induction
import Mathlib.Logic.Relation
import WorstCase.Proofs.Linear.Tableau

/-!
# Pivoting to an optimum

The rules by which variables enter and leave a basis, and what holds after any number of pivots by
them. A pivot keeps a basis feasible (`Tableau.Feasible.next`) and the tableau with the same
meaning. When no variable can enter, no values with zeros beyond the allowed variables are better
than the point of the tableau (`Tableau.valueAt_le_constant`); when one can enter that no row
limits, its ray has values of any size (`Tableau.Feasible.exists_ray`).
-/

namespace WorstCase

namespace Tableau

/-! ## Steps -/

section steps

variable {α : Type} [Scalar α]

/-- One pivot by the rules. -/
def Next (tiny : α) (allowed : ℕ) (t t' : Tableau α) : Prop :=
  ∃ c r, t.entering? tiny allowed = some c ∧ t.leaving? tiny c = some r ∧ t' = t.pivot tiny r c

/-- How pivoting ends: at a tableau that nothing can enter, at one that something can enter without
limit, or for want of iterations. -/
theorem iterate_cases (tiny : α) (allowed n : ℕ) (t : Tableau α) :
    (∃ t', t.iterate tiny allowed n = .ok t' ∧
      Relation.ReflTransGen (Next tiny allowed) t t' ∧ t'.entering? tiny allowed = none) ∨
    (t.iterate tiny allowed n = .error .unbounded ∧ ∃ t' c,
      Relation.ReflTransGen (Next tiny allowed) t t' ∧ t'.entering? tiny allowed = some c ∧
        t'.leaving? tiny c = none) ∨
    t.iterate tiny allowed n = .error .numericalFailure := by
  induction n generalizing t with
  | zero => exact Or.inr (Or.inr rfl)
  | succ n ih =>
    unfold iterate
    split
    · next henter => exact Or.inl ⟨t, rfl, .refl, henter⟩
    · next c henter =>
      split
      · next hleave => exact Or.inr (Or.inl ⟨rfl, t, c, .refl, henter, hleave⟩)
      · next r hleave =>
        have hnext : Next tiny allowed t (t.pivot tiny r c) := ⟨c, r, henter, hleave, rfl⟩
        rcases ih (t.pivot tiny r c) with ⟨t', hok, hrun, hend⟩ | ⟨herr, t', c', hrun, hend⟩ | herr
        · exact Or.inl ⟨t', hok, hrun.head hnext, hend⟩
        · exact Or.inr (Or.inl ⟨herr, t', c', hrun.head hnext, hend⟩)
        · exact Or.inr (Or.inr herr)

/-- The best limit after one more row, which is given with its index. -/
def Limit.after (tiny : α) (c : ℕ) (best : Option (Limit α)) (row : TableauRow α × ℕ) :
    Option (Limit α) :=
  if row.1.equation.coefficient c ≤ tiny then best
  else some (Limit.tighten tiny best
    ⟨row.2, row.1.basic, row.1.equation.constant / row.1.equation.coefficient c⟩)

theorem leaving?_eq_foldl (t : Tableau α) (tiny : α) (c : ℕ) :
    t.leaving? tiny c = (t.rows.zipIdx.foldl (Limit.after tiny c) none).map (·.row) :=
  rfl

end steps

/-! ## The entering variable -/

/-- Without an entering column no allowed variable can improve the objective. -/
theorem entering?_eq_none {t : Tableau ℚ} {allowed : ℕ} (h : t.entering? 0 allowed = none) {j : ℕ}
    (hj : j < allowed) : 0 ≤ t.objective.coefficient j := by
  have hge := of_decide_eq_false (Equation.coefficient_of_findIdx?_eq_none h rfl hj)
  rwa [neg_zero, not_lt] at hge

/-- The entering column is allowed and improves the objective. -/
theorem entering?_eq_some {t : Tableau ℚ} {allowed c : ℕ} (h : t.entering? 0 allowed = some c) :
    c < allowed ∧ c < t.objective.coefficients.length ∧ t.objective.coefficient c < 0 := by
  obtain ⟨hc, hlen, hneg⟩ := Equation.coefficient_of_findIdx?_eq_some h
  have hlt := of_decide_eq_true hneg
  rw [neg_zero] at hlt
  exact ⟨hc, hlen, hlt⟩

/-! ## The leaving row -/

/-- How far a row lets `c` rise. -/
def ratio (row : TableauRow ℚ) (c : ℕ) : ℚ :=
  row.equation.constant / row.equation.coefficient c

/-- The best limit for `c` that a scan of `rows` ends with. -/
def scanned? (tiny : ℚ) (c : ℕ) (rows : List (TableauRow ℚ)) : Option (Limit ℚ) :=
  rows.zipIdx.foldl (Limit.after tiny c) none

theorem leaving?_eq_scanned? (tiny : ℚ) (t : Tableau ℚ) (c : ℕ) :
    t.leaving? tiny c = (scanned? tiny c t.rows).map (·.row) :=
  leaving?_eq_foldl t tiny c

/-- The scan takes the next row in if its coefficient is large enough. -/
theorem scanned?_concat (tiny : ℚ) (c : ℕ) (rows : List (TableauRow ℚ)) (row : TableauRow ℚ) :
    scanned? tiny c (rows ++ [row]) =
      if row.equation.coefficient c ≤ tiny then scanned? tiny c rows
      else some (Limit.tighten tiny (scanned? tiny c rows)
        ⟨rows.length, row.basic, ratio row c⟩) := by
  rw [scanned?, List.zipIdx_append, List.foldl_append, Nat.zero_add]
  rfl

/-- Without a tolerance, the smaller ratio wins, and the smaller basic variable between equal
ratios. -/
theorem tighten_some (best new : Limit ℚ) : Limit.tighten 0 (some best) new =
    if new.ratio < best.ratio ∨ (new.ratio = best.ratio ∧ new.basic < best.basic) then new
    else best := by
  have hcond : (new.ratio < best.ratio - 0 ∨
      (new.ratio ≤ best.ratio + 0 ∧ new.basic < best.basic)) ↔
      (new.ratio < best.ratio ∨ (new.ratio = best.ratio ∧ new.basic < best.basic)) := by
    rw [sub_zero, add_zero]
    constructor
    · rintro (h | ⟨h, hb⟩)
      · exact Or.inl h
      · exact h.lt_or_eq.imp_right fun heq => ⟨heq, hb⟩
    · rintro (h | ⟨h, hb⟩)
      · exact Or.inl h
      · exact Or.inr ⟨h.le, hb⟩
  by_cases h : new.ratio < best.ratio ∨ (new.ratio = best.ratio ∧ new.basic < best.basic)
  · rw [if_pos h]
    exact if_pos (hcond.2 h)
  · rw [if_neg h]
    exact if_neg (mt hcond.1 h)

/-- The limit is that of one of the rows, and of all rows that limit `c` none limits it more, nor as
much with a smaller basic variable. -/
structure Tightest (c : ℕ) (rows : List (TableauRow ℚ)) (l : Limit ℚ) : Prop where
  split : ∃ a row b, rows = a ++ row :: b ∧ a.length = l.row ∧ row.basic = l.basic ∧
    ratio row c = l.ratio ∧ 0 < row.equation.coefficient c
  least : ∀ row ∈ rows, 0 < row.equation.coefficient c →
    l.ratio < ratio row c ∨ (l.ratio = ratio row c ∧ l.basic ≤ row.basic)

theorem Tightest.concat {c : ℕ} {rows : List (TableauRow ℚ)} {l : Limit ℚ} (h : Tightest c rows l)
    {row : TableauRow ℚ} (hrow : 0 < row.equation.coefficient c →
      l.ratio < ratio row c ∨ (l.ratio = ratio row c ∧ l.basic ≤ row.basic)) :
    Tightest c (rows ++ [row]) l := by
  obtain ⟨⟨a, first, b, rfl, hfirst⟩, hleast⟩ := h
  refine ⟨⟨a, first, b ++ [row], by simp, hfirst⟩, ?_⟩
  exact List.forall_mem_append.2 ⟨hleast, List.forall_mem_singleton.2 hrow⟩

theorem tightest_concat {c : ℕ} {rows : List (TableauRow ℚ)} {row : TableauRow ℚ}
    (hpos : 0 < row.equation.coefficient c)
    (hleast : ∀ other ∈ rows, 0 < other.equation.coefficient c →
      ratio row c < ratio other c ∨ (ratio row c = ratio other c ∧ row.basic ≤ other.basic)) :
    Tightest c (rows ++ [row]) ⟨rows.length, row.basic, ratio row c⟩ := by
  refine ⟨⟨rows, row, [], rfl, rfl, rfl, rfl, hpos⟩, ?_⟩
  exact List.forall_mem_append.2
    ⟨hleast, List.forall_mem_singleton.2 fun _ => Or.inr ⟨rfl, le_rfl⟩⟩

/-- Without room for rounding, either no row limits `c`, or the limit that is found is the
tightest. -/
theorem scanned?_zero_spec (c : ℕ) (rows : List (TableauRow ℚ)) :
    (scanned? 0 c rows = none ∧ ∀ row ∈ rows, row.equation.coefficient c ≤ 0) ∨
      ∃ l, scanned? 0 c rows = some l ∧ Tightest c rows l := by
  induction rows using List.reverseRecOn with
  | nil => exact Or.inl ⟨rfl, fun row hrow => absurd hrow List.not_mem_nil⟩
  | append_singleton rows row ih =>
    rw [scanned?_concat]
    split
    · next hle =>
      rcases ih with ⟨hnone, hall⟩ | ⟨l, hl, htight⟩
      · exact Or.inl ⟨hnone, List.forall_mem_append.2 ⟨hall, List.forall_mem_singleton.2 hle⟩⟩
      · exact Or.inr ⟨l, hl, htight.concat fun hpos => absurd hle (not_le.2 hpos)⟩
    · next hgt =>
      refine Or.inr ⟨_, rfl, ?_⟩
      rcases ih with ⟨hnone, hall⟩ | ⟨l, hl, htight⟩
      · rw [hnone]
        apply tightest_concat (not_le.1 hgt)
        exact fun other ho hpos => absurd (hall other ho) (not_le.2 hpos)
      · rw [hl, tighten_some]
        split
        · next hlt =>
          apply tightest_concat (not_le.1 hgt)
          intro other ho hpos
          rcases hlt with hlt | ⟨heq, hb⟩ <;>
            rcases htight.least other ho hpos with h | ⟨h, hb'⟩
          · exact Or.inl (hlt.trans h)
          · exact Or.inl (hlt.trans_eq h)
          · exact Or.inl (heq.trans_lt h)
          · exact Or.inr ⟨heq.trans h, hb.le.trans hb'⟩
        · next hge =>
          simp only [not_or, not_lt, not_and] at hge
          apply htight.concat
          exact fun _ => hge.1.lt_or_eq.imp_right fun heq => ⟨heq, hge.2 heq.symm⟩

/-- Without a leaving row nothing limits the entering variable. -/
theorem leaving?_eq_none {t : Tableau ℚ} {c : ℕ} (h : t.leaving? 0 c = none) :
    ∀ row ∈ t.rows, row.equation.coefficient c ≤ 0 := by
  rcases scanned?_zero_spec c t.rows with ⟨-, hall⟩ | ⟨l, hl, -⟩
  · exact hall
  · rw [leaving?_eq_scanned?, hl] at h
    cases h

theorem leaving?_eq_some {t : Tableau ℚ} {c r : ℕ} (h : t.leaving? 0 c = some r) :
    ∃ l, l.row = r ∧ Tightest c t.rows l := by
  rcases scanned?_zero_spec c t.rows with ⟨hnone, -⟩ | ⟨l, hl, hspec⟩
  · rw [leaving?_eq_scanned?, hnone] at h
    cases h
  · rw [leaving?_eq_scanned?, hl] at h
    exact ⟨l, Option.some.inj h, hspec⟩

/-! ## Feasible bases -/

/-- The basis of the tableau is feasible: it is in canonical form, and no basic variable is
negative. -/
structure Feasible (t : Tableau ℚ) : Prop extends t.Canonical where
  nonneg : t.Nonneg

/-- What a pivot by the rules does, apart from the choices of the rules among equals. -/
theorem Next.exists_pivot {t t' : Tableau ℚ} {allowed : ℕ} (h : Next 0 allowed t t') :
    ∃ c a row b, c < allowed ∧ c < t.objective.coefficients.length ∧ t.rows = a ++ row :: b ∧
      0 < row.equation.coefficient c ∧ (∀ other ∈ t.rows, 0 < other.equation.coefficient c →
        ratio row c ≤ ratio other c) ∧ t' = t.pivot 0 a.length c := by
  obtain ⟨c, r, henter, hleave, rfl⟩ := h
  obtain ⟨hc, hlen, -⟩ := entering?_eq_some henter
  obtain ⟨l, rfl, ⟨a, row, b, hrows, ha, -, hratio, hpos⟩, hleast⟩ := leaving?_eq_some hleave
  refine ⟨c, a, row, b, hc, hlen, hrows, hpos, fun other ho hother => ?_, by rw [ha]⟩
  rw [hratio]
  exact (hleast other ho hother).elim le_of_lt fun heq => heq.1.le

/-- A step keeps the basis feasible and the meaning of the tableau. -/
theorem Feasible.next {t t' : Tableau ℚ} {allowed : ℕ} (ht : t.Feasible) (h : Next 0 allowed t t') :
    t'.Feasible ∧ t.SameMeaning t' := by
  obtain ⟨c, a, row, b, -, hc, hrows, hpos, hleast, rfl⟩ := h.exists_pivot
  have hrow : row ∈ t.rows := (mem_rows_iff hrows).2 (Or.inl rfl)
  rw [ht.objective_length] at hc
  refine ⟨⟨ht.toCanonical.pivot hrows hc hpos.ne', ?_⟩, ht.sameMeaning_pivot hrows hpos.ne'⟩
  exact ht.nonneg.pivot hrows (div_nonneg (ht.nonneg row hrow) hpos.le) hleast

/-- A run keeps the basis feasible and the meaning of the tableau. -/
theorem Feasible.run {t t' : Tableau ℚ} {allowed : ℕ} (ht : t.Feasible)
    (h : Relation.ReflTransGen (Next 0 allowed) t t') : t'.Feasible ∧ t.SameMeaning t' := by
  induction h with
  | refl => exact ⟨ht, .refl t⟩
  | tail _ hnext ih =>
    have hlast := ih.1.next hnext
    exact ⟨hlast.1, ih.2.trans hlast.2⟩

/-- With no negative reduced cost, values that are zero beyond the allowed variables are no better
than the constant of the objective. -/
theorem valueAt_le_constant {t : Tableau ℚ} {allowed : ℕ} (h : t.entering? 0 allowed = none)
    {x : ℕ → ℚ} (hx : ∀ j, 0 ≤ x j) (hz : ∀ j, allowed ≤ j → j < t.width → x j = 0) :
    t.valueAt x ≤ t.objective.constant := by
  have hsum : 0 ≤ ∑ j ∈ Finset.range t.width, t.objective.coefficient j * x j := by
    refine Finset.sum_nonneg fun j hj => ?_
    rcases lt_or_ge j allowed with hlt | hge
    · exact mul_nonneg (entering?_eq_none h hlt) (hx j)
    · rw [hz j hge (Finset.mem_range.1 hj), mul_zero]
  rw [valueAt, Equation.gap]
  linarith

/-- Along a ray with a negative reduced cost the objective passes every bound. -/
theorem Feasible.exists_ray {t : Tableau ℚ} (ht : t.Feasible) {allowed c : ℕ}
    (henter : t.entering? 0 allowed = some c) (hleave : t.leaving? 0 c = none) (bound : ℚ) :
    ∃ s, t.Solves (t.ray c s) ∧ (∀ j, 0 ≤ t.ray c s j) ∧ bound < t.valueAt (t.ray c s) := by
  obtain ⟨-, hlen, hneg⟩ := entering?_eq_some henter
  rw [ht.objective_length] at hlen
  obtain ⟨k, hk⟩ := exists_nat_gt ((bound - t.objective.constant) / -t.objective.coefficient c)
  have hk' : bound - t.objective.constant < k * -t.objective.coefficient c :=
    (div_lt_iff₀ (neg_pos.2 hneg)).1 hk
  refine ⟨k, ht.solves_ray hlen k, ht.nonneg.ray_nonneg (leaving?_eq_none hleave) k.cast_nonneg, ?_⟩
  rw [ht.valueAt_ray hlen]
  linarith

end Tableau

end WorstCase
