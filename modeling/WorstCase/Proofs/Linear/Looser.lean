import Mathlib.Data.List.Forall2
import WorstCase.Proofs.Linear.Exact

/-!
# Problems that ask for less

Where values are not negative, a row with a limit asks for less if its coefficients are smaller. A
problem is looser than another one (`Problem.Looser`) if it has the same columns, which count for as
much or more, and rows that are the same or ask for less: what satisfies the other problem satisfies
it, and the objective is at least as large.
-/

namespace WorstCase

/-- The second row is the first, or both have the same limit and the coefficients of the second are
smaller. -/
def Row.Looser (r r' : Row ℚ) : Prop :=
  r' = r ∨ r.comparison = .atMost ∧ r'.comparison = .atMost ∧ r'.rhs = r.rhs ∧
    List.Forall₂ (fun x x' => x'.1 = x.1 ∧ x'.2 ≤ x.2) r.terms r'.terms

/-- The columns are the same, but the second counts for as much or more in the objective. -/
structure Column.Worth (c c' : Column ℚ) : Prop where
  eq : c' = { c with objective := c'.objective }
  objective : c.objective ≤ c'.objective

/-- The second problem asks for less, and its columns count for more. -/
structure Problem.Looser (p p' : Problem ℚ) : Prop where
  columns : List.Forall₂ Column.Worth p.columns p'.columns
  rows : List.Forall₂ Row.Looser p.rows p'.rows

/-! ## Related lists -/

section lists

variable {β γ δ : Type} {R : β → γ → Prop} {xs : List β} {ys : List γ}

theorem forall_mem_of_forall₂ (h : List.Forall₂ R xs ys) {P : β → Prop} {Q : γ → Prop}
    (hR : ∀ x y, R x y → P x → Q y) (hP : ∀ x ∈ xs, P x) : ∀ y ∈ ys, Q y := by
  induction h with
  | nil => exact fun y hy => absurd hy List.not_mem_nil
  | cons hxy _ ih =>
    obtain ⟨hx, hxs⟩ := List.forall_mem_cons.1 hP
    exact List.forall_mem_cons.2 ⟨hR _ _ hxy hx, ih hxs⟩

/-- Related entries stand beside the same entries of another list. -/
theorem forall₂_zip_zip (h : List.Forall₂ R xs ys) (vs : List δ) :
    List.Forall₂ (fun q q' => R q.1 q'.1 ∧ q'.2 = q.2 ∧ q.2 ∈ vs) (xs.zip vs) (ys.zip vs) := by
  induction h generalizing vs with
  | nil => exact .nil
  | cons hxy _ ih =>
    cases vs with
    | nil => exact .nil
    | cons v vs =>
      refine .cons ⟨hxy, rfl, List.mem_cons_self⟩ ((ih vs).imp fun q q' hq => ?_)
      exact ⟨hq.1, hq.2.1, List.mem_cons_of_mem _ hq.2.2⟩

end lists

/-! ## What satisfies a looser problem -/

variable {values : List ℚ} (hv : ∀ v ∈ values, 0 ≤ v)

include hv

theorem valueAt?_getD_nonneg (c : Nat) : 0 ≤ (valueAt? values c).getD 0 := by
  unfold valueAt?
  split
  · exact le_refl 0
  · cases hc : values[c - 1]? with
    | none => exact le_refl 0
    | some v => exact hv v (List.mem_of_getElem? hc)

/-- Values that are not negative and satisfy a row satisfy a looser one. -/
theorem Row.Looser.holds {r r' : Row ℚ} (h : r.Looser r') {slack : ℚ}
    (hr : r.comparison.holds slack (r.activity values) r.rhs) :
    r'.comparison.holds slack (r'.activity values) r'.rhs := by
  rcases h with rfl | ⟨hle, hle', hrhs, hterms⟩
  · exact hr
  · have hactivity : r'.activity values ≤ r.activity values := by
      rw [activity_eq_sum, activity_eq_sum]
      apply List.Forall₂.sum_le_sum
      rw [List.forall₂_map_left_iff, List.forall₂_map_right_iff]
      refine List.Forall₂.flip (hterms.imp fun x x' hx => ?_)
      rw [flip, hx.1]
      exact mul_le_mul_of_nonneg_right hx.2 (valueAt?_getD_nonneg hv x.1)
    have hholds : ∀ left right : ℚ,
        Comparison.holds slack .atMost left right ↔ left ≤ right + slack := fun left right =>
      decide_eq_true_iff
    rw [hle, hholds] at hr
    rw [hle', hholds, hrhs]
    exact hactivity.trans hr

namespace Problem.Looser

variable {p p' : Problem ℚ} (h : p.Looser p')

include h

theorem objectiveAt_le : p.objectiveAt values ≤ p'.objectiveAt values := by
  rw [objectiveAt_eq_sum, objectiveAt_eq_sum, ← List.map_uncurry_zip_eq_zipWith,
    ← List.map_uncurry_zip_eq_zipWith]
  apply List.Forall₂.sum_le_sum
  rw [List.forall₂_map_left_iff, List.forall₂_map_right_iff]
  refine (forall₂_zip_zip h.columns values).imp fun q q' hq => ?_
  rw [Function.uncurry, Function.uncurry, hq.2.1]
  exact mul_le_mul_of_nonneg_right hq.1.objective (hv _ hq.2.2)

theorem feasible (hf : p.Feasible values) : p'.Feasible values where
  length_eq := hf.length_eq.trans h.columns.length_eq
  bounds := by
    refine forall_mem_of_forall₂ (forall₂_zip_zip h.columns values) (fun q q' hq hb => ?_) hf.bounds
    rw [hq.1.eq, hq.2.1]
    exact hb
  rows := forall_mem_of_forall₂ h.rows (fun r r' hr => hr.holds hv) hf.rows

/-- Bounds, rows and demands for whole values that are met up to a slack are met up to it. -/
theorem isSatisfiedBy {slack : ℚ} (hs : p.isSatisfiedBy slack values) :
    p'.isSatisfiedBy slack values := by
  simp only [Problem.isSatisfiedBy, Bool.and_eq_true, beq_iff_eq, List.all_eq_true] at hs ⊢
  obtain ⟨⟨hlen, hcolumns⟩, hrows⟩ := hs
  refine ⟨⟨hlen.trans h.columns.length_eq, ?_⟩, ?_⟩
  · refine forall_mem_of_forall₂ (forall₂_zip_zip h.columns values) (fun q q' hq hb => ?_) hcolumns
    rw [hq.1.eq, hq.2.1]
    exact hb
  · exact forall_mem_of_forall₂ h.rows (fun r r' hr => hr.holds hv) hrows

end Problem.Looser

end WorstCase
