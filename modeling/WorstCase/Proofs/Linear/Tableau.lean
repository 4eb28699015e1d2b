import Mathlib.Algebra.BigOperators.Field
import Mathlib.Algebra.BigOperators.Ring.List
import Mathlib.Algebra.Order.BigOperators.Group.List
import Mathlib.Algebra.Order.Field.Rat
import Mathlib.Data.List.GetD
import Mathlib.Tactic.FieldSimp
import Mathlib.Tactic.Linarith
import Mathlib.Tactic.Ring
import WorstCase.Linear.Tableau
import WorstCase.Proofs.Linear.Exact

/-!
# Tableaux in canonical form

Over the rationals and without room for rounding, a pivot adds multiples of one equation to others.
How far an equation is from holding (`Equation.gap`) is linear in the equation, so a pivot on an
entry that is not zero keeps the solutions of a tableau and its objective at each of them
(`Tableau.sameMeaning_pivot`).

A tableau is in canonical form (`Tableau.Canonical`) when each basic variable has coefficient one in
its own row and zero in all others and in the objective. Then the rows can be solved for the basic
variables, whatever is asked of the others. All other variables at zero give the point of the
tableau (`Tableau.solves_point`), which has the constant of the objective as its value; moving one
of them gives a ray (`Tableau.solves_ray`).
-/

namespace WorstCase

namespace Equation

/-! ## Entries -/

section length

variable {α : Type} [Scalar α]

theorem length_normalise (e : Equation α) (c : ℕ) :
    (e.normalise c).coefficients.length = e.coefficients.length :=
  List.length_map _

theorem length_eliminate {e source : Equation α} (tiny : α) (c : ℕ)
    (h : source.coefficients.length = e.coefficients.length) :
    (e.eliminate tiny source c).coefficients.length = e.coefficients.length := by
  simp only [eliminate]
  split
  · rfl
  · rw [List.length_zipWith, h, Nat.min_self]

theorem length_addMultiple {e other : Equation α} (factor : α)
    (h : other.coefficients.length = e.coefficients.length) :
    (e.addMultiple factor other).coefficients.length = e.coefficients.length := by
  rw [addMultiple, List.length_zipWith, h, Nat.min_self]

end length

theorem coefficient_eq (e : Equation ℚ) (j : ℕ) : e.coefficient j = e.coefficients.getD j 0 :=
  rfl

theorem coefficient_of_length_le {e : Equation ℚ} {j : ℕ} (h : e.coefficients.length ≤ j) :
    e.coefficient j = 0 := by
  rw [coefficient_eq, List.getD_eq_default _ _ h]

/-- A search through the first coefficients that finds none finds no variable either, and one beyond
the coefficients is taken for zero. -/
theorem coefficient_of_findIdx?_eq_none {e : Equation ℚ} {test : ℚ → Bool} {n : ℕ}
    (h : (e.coefficients.take n).findIdx? test = none) (hzero : test 0 = false) {j : ℕ}
    (hj : j < n) : test (e.coefficient j) = false := by
  rw [List.findIdx?_eq_none_iff] at h
  by_cases hlen : j < e.coefficients.length
  · rw [coefficient_eq, List.getD_eq_getElem _ _ hlen]
    exact h _ (List.mem_take_iff_getElem.2 ⟨j, lt_min hj hlen, rfl⟩)
  · rw [coefficient_of_length_le (not_lt.1 hlen), hzero]

/-- A coefficient that was searched for has been found among the allowed ones. -/
theorem coefficient_of_findIdx?_eq_some {e : Equation ℚ} {test : ℚ → Bool} {n c : ℕ}
    (h : (e.coefficients.take n).findIdx? test = some c) :
    c < n ∧ c < e.coefficients.length ∧ test (e.coefficient c) = true := by
  obtain ⟨hlt, htest, -⟩ := List.findIdx?_eq_some_iff_getElem.1 h
  rw [List.length_take, lt_min_iff] at hlt
  rw [List.getElem_take] at htest
  rw [coefficient_eq, List.getD_eq_getElem _ _ hlt.2]
  exact ⟨hlt.1, hlt.2, htest⟩

theorem coefficient_normalise (e : Equation ℚ) (c j : ℕ) :
    (e.normalise c).coefficient j = e.coefficient j / e.coefficient c := by
  have hn : (e.normalise c).coefficient j =
      (e.coefficients.map (· / e.coefficient c)).getD j 0 := rfl
  rw [hn, coefficient_eq e j, List.getD_eq_getElem?_getD, List.getD_eq_getElem?_getD,
    List.getElem?_map]
  cases e.coefficients[j]? with
  | none => simp
  | some x => rfl

theorem constant_normalise (e : Equation ℚ) (c : ℕ) :
    (e.normalise c).constant = e.constant / e.coefficient c :=
  rfl

/-- Nothing is rounded away, and taking away nothing leaves the equation. -/
theorem eliminate_eq (e source : Equation ℚ) (c : ℕ) : e.eliminate 0 source c =
    if e.coefficient c = 0 then e
    else ⟨List.zipWith (fun value pivot => value - e.coefficient c * pivot) e.coefficients
      source.coefficients, e.constant - e.coefficient c * source.constant⟩ := by
  have hentry : ∀ value pivot : ℚ,
      (if Scalar.abs (value - e.coefficient c * pivot) < (0 : ℚ) * 0 then 0
        else value - e.coefficient c * pivot) = value - e.coefficient c * pivot := by
    intro value pivot
    rw [if_neg]
    rw [Scalar.abs_eq, mul_zero, not_lt]
    exact abs_nonneg _
  unfold eliminate
  by_cases hf : e.coefficient c = 0
  · have hb : (e.coefficient c == 0) = true := beq_iff_eq.2 hf
    rw [if_pos hf]
    exact if_pos hb
  · have hb : ¬ (e.coefficient c == 0) = true := mt beq_iff_eq.1 hf
    rw [if_neg hf]
    refine (if_neg hb).trans (congrArg₂ Equation.mk ?_ (hentry _ _))
    exact congrArg (fun f => List.zipWith f e.coefficients source.coefficients)
      (funext fun value => funext fun pivot => hentry value pivot)

theorem getD_zipWith {xs ys : List ℚ} {f : ℚ → ℚ → ℚ} (hf : f 0 0 = 0)
    (h : ys.length = xs.length) (j : ℕ) :
    (List.zipWith f xs ys).getD j 0 = f (xs.getD j 0) (ys.getD j 0) := by
  by_cases hj : j < xs.length
  · rw [List.getD_eq_getElem _ _ (by rw [List.length_zipWith]; omega), List.getElem_zipWith,
      List.getD_eq_getElem _ _ hj, List.getD_eq_getElem _ _ (h ▸ hj)]
  · rw [List.getD_eq_default _ _ (by rw [List.length_zipWith]; omega),
      List.getD_eq_default _ _ (by omega), List.getD_eq_default _ _ (by omega), hf]

/-- Without a tolerance, elimination takes off a multiple of the other equation. -/
theorem coefficient_eliminate {e source : Equation ℚ} (c j : ℕ)
    (h : source.coefficients.length = e.coefficients.length) :
    (e.eliminate 0 source c).coefficient j =
      e.coefficient j - e.coefficient c * source.coefficient j := by
  rw [eliminate_eq]
  split
  · next hf => rw [hf, zero_mul, sub_zero]
  · exact getD_zipWith (by simp) h j

theorem constant_eliminate (e source : Equation ℚ) (c : ℕ) :
    (e.eliminate 0 source c).constant = e.constant - e.coefficient c * source.constant := by
  rw [eliminate_eq]
  split
  · next hf => rw [hf, zero_mul, sub_zero]
  · rfl

theorem coefficient_addMultiple {e other : Equation ℚ} (factor : ℚ) (j : ℕ)
    (h : other.coefficients.length = e.coefficients.length) :
    (e.addMultiple factor other).coefficient j = e.coefficient j + factor * other.coefficient j :=
  getD_zipWith (f := fun value otherValue => value + factor * otherValue) (by simp) h j

theorem constant_addMultiple (e other : Equation ℚ) (factor : ℚ) :
    (e.addMultiple factor other).constant = e.constant + factor * other.constant :=
  rfl

/-! ## Gaps -/

/-- How far the equation is from holding at `x`, the variables being the first `width`. -/
def gap (width : ℕ) (e : Equation ℚ) (x : ℕ → ℚ) : ℚ :=
  (∑ j ∈ Finset.range width, e.coefficient j * x j) - e.constant

theorem gap_normalise (width : ℕ) (e : Equation ℚ) (c : ℕ) (x : ℕ → ℚ) :
    (e.normalise c).gap width x = e.gap width x / e.coefficient c := by
  simp only [gap, coefficient_normalise, constant_normalise, sub_div, Finset.sum_div]
  congr 1
  exact Finset.sum_congr rfl fun j _ => by ring

/-- What an equation is missed by after elimination follows from both equations. -/
theorem gap_eliminate (width : ℕ) {e source : Equation ℚ} (c : ℕ) (x : ℕ → ℚ)
    (h : source.coefficients.length = e.coefficients.length) :
    (e.eliminate 0 source c).gap width x =
      e.gap width x - e.coefficient c * source.gap width x := by
  simp only [gap, coefficient_eliminate _ _ h, constant_eliminate, sub_mul, Finset.sum_sub_distrib,
    mul_sub, Finset.mul_sum, mul_assoc]
  ring

theorem gap_addMultiple (width : ℕ) {e other : Equation ℚ} (factor : ℚ) (x : ℕ → ℚ)
    (h : other.coefficients.length = e.coefficients.length) :
    (e.addMultiple factor other).gap width x =
      e.gap width x + factor * other.gap width x := by
  simp only [gap, coefficient_addMultiple _ _ h, constant_addMultiple, add_mul,
    Finset.sum_add_distrib, mul_sub, Finset.mul_sum, mul_assoc]
  ring

end Equation

namespace Tableau

/-! ## Shape -/

section shape

variable {α : Type} [Scalar α]

/-- Every equation has one coefficient for each variable, and the basic variables are variables. -/
structure Shaped (t : Tableau α) : Prop where
  row_length : ∀ row ∈ t.rows, row.equation.coefficients.length = t.width
  basic_lt : ∀ row ∈ t.rows, row.basic < t.width
  objective_length : t.objective.coefficients.length = t.width

/-- What a pivot makes of a row that it does not pick. -/
def cleared (tiny : α) (source : Equation α) (c : ℕ) (row : TableauRow α) : TableauRow α :=
  { row with equation := row.equation.eliminate tiny source c }

theorem mapIdx_split {ι κ : Type} (a : List ι) (x : ι) (b : List ι) (f : ι → κ) (z : κ) :
    (a ++ x :: b).mapIdx (fun i y => if i = a.length then z else f y) =
      a.map f ++ z :: b.map f := by
  induction a with
  | nil =>
    have hrest : b.mapIdx (fun _ y => f y) = b.map f := List.ext_getElem? fun i => by simp
    simpa [List.mapIdx_cons] using hrest
  | cons y a ih => simpa [List.mapIdx_cons] using ih

/-- A pivot normalises its row and clears its column in the others. -/
theorem rows_pivot {t : Tableau α} {a b : List (TableauRow α)} {row : TableauRow α}
    (h : t.rows = a ++ row :: b) (tiny : α) (c : ℕ) : (t.pivot tiny a.length c).rows =
      a.map (cleared tiny (row.equation.normalise c) c) ++
        ⟨row.equation.normalise c, c⟩ :: b.map (cleared tiny (row.equation.normalise c) c) := by
  have hrow : t.rows[a.length]? = some row := by simp [h]
  simp only [pivot, hrow]
  rw [h]
  exact mapIdx_split a row b (cleared tiny (row.equation.normalise c) c)
    ⟨row.equation.normalise c, c⟩

theorem objective_pivot {t : Tableau α} {a b : List (TableauRow α)} {row : TableauRow α}
    (h : t.rows = a ++ row :: b) (tiny : α) (c : ℕ) : (t.pivot tiny a.length c).objective =
      t.objective.eliminate tiny (row.equation.normalise c) c := by
  have hrow : t.rows[a.length]? = some row := by simp [h]
  simp only [pivot, hrow]

theorem width_pivot (t : Tableau α) (tiny : α) (r c : ℕ) : (t.pivot tiny r c).width = t.width := by
  unfold pivot
  split <;> rfl

theorem artificialStart_pivot (t : Tableau α) (tiny : α) (r c : ℕ) :
    (t.pivot tiny r c).artificialStart = t.artificialStart := by
  unfold pivot
  split <;> rfl

omit [Scalar α] in
theorem mem_rows_iff {t : Tableau α} {a b : List (TableauRow α)} {row other : TableauRow α}
    (h : t.rows = a ++ row :: b) : other ∈ t.rows ↔ other = row ∨ other ∈ a ++ b := by
  rw [h]
  simp only [List.mem_append, List.mem_cons]
  tauto

/-- The rows after a pivot: the one it has picked and the others, cleared. -/
theorem mem_rows_pivot {t : Tableau α} {a b : List (TableauRow α)} {row : TableauRow α}
    (h : t.rows = a ++ row :: b) {tiny : α} {c : ℕ} {row' : TableauRow α} :
    row' ∈ (t.pivot tiny a.length c).rows ↔ row' = ⟨row.equation.normalise c, c⟩ ∨
      ∃ other ∈ a ++ b, cleared tiny (row.equation.normalise c) c other = row' := by
  rw [rows_pivot h, ← List.mem_map, List.map_append]
  simp only [List.mem_append, List.mem_cons]
  tauto

/-- A pivot inside the tableau keeps the sizes. -/
theorem Shaped.pivot {t : Tableau α} (ht : t.Shaped) {a b : List (TableauRow α)}
    {row : TableauRow α} (h : t.rows = a ++ row :: b) (tiny : α) {c : ℕ} (hc : c < t.width) :
    (t.pivot tiny a.length c).Shaped := by
  have hsource : (row.equation.normalise c).coefficients.length = t.width := by
    rw [Equation.length_normalise]
    exact ht.row_length row (by simp [h])
  constructor
  · intro row' hrow'
    rw [width_pivot]
    rcases (mem_rows_pivot h).1 hrow' with rfl | ⟨other, ho, rfl⟩
    · exact hsource
    · have hlen := ht.row_length other ((mem_rows_iff h).2 (Or.inr ho))
      exact (Equation.length_eliminate tiny c (hsource.trans hlen.symm)).trans hlen
  · intro row' hrow'
    rw [width_pivot]
    rcases (mem_rows_pivot h).1 hrow' with rfl | ⟨other, ho, rfl⟩
    · exact hc
    · exact ht.basic_lt other ((mem_rows_iff h).2 (Or.inr ho))
  · rw [width_pivot, objective_pivot h]
    exact (Equation.length_eliminate tiny c (hsource.trans ht.objective_length.symm)).trans
      ht.objective_length

end shape

/-! ## Meaning -/

/-- The values satisfy all equations. -/
def Solves (t : Tableau ℚ) (x : ℕ → ℚ) : Prop :=
  ∀ row ∈ t.rows, row.equation.gap t.width x = 0

/-- The objective at `x`, told from the reduced costs. -/
def valueAt (t : Tableau ℚ) (x : ℕ → ℚ) : ℚ :=
  -t.objective.gap t.width x

structure SameSolutions (t t' : Tableau ℚ) : Prop where
  width_eq : t'.width = t.width
  start_eq : t'.artificialStart = t.artificialStart
  solves_iff : ∀ x, t'.Solves x ↔ t.Solves x

/-- The tableaux have the same solutions, and the same objective at each of them. -/
structure SameMeaning (t t' : Tableau ℚ) : Prop extends SameSolutions t t' where
  valueAt_eq : ∀ x, t.Solves x → t'.valueAt x = t.valueAt x

theorem SameSolutions.trans {t t' t'' : Tableau ℚ} (h : t.SameSolutions t')
    (h' : t'.SameSolutions t'') : t.SameSolutions t'' where
  width_eq := h'.width_eq.trans h.width_eq
  start_eq := h'.start_eq.trans h.start_eq
  solves_iff x := (h'.solves_iff x).trans (h.solves_iff x)

theorem SameMeaning.refl (t : Tableau ℚ) : t.SameMeaning t :=
  ⟨⟨rfl, rfl, fun _ => Iff.rfl⟩, fun _ _ => rfl⟩

theorem SameMeaning.trans {t t' t'' : Tableau ℚ} (h : t.SameMeaning t') (h' : t'.SameMeaning t'') :
    t.SameMeaning t'' where
  toSameSolutions := h.toSameSolutions.trans h'.toSameSolutions
  valueAt_eq x hx := (h'.valueAt_eq x ((h.solves_iff x).2 hx)).trans (h.valueAt_eq x hx)

theorem SameMeaning.symm {t t' : Tableau ℚ} (h : t.SameMeaning t') : t'.SameMeaning t where
  width_eq := h.width_eq.symm
  start_eq := h.start_eq.symm
  solves_iff x := (h.solves_iff x).symm
  valueAt_eq x hx := (h.valueAt_eq x ((h.solves_iff x).1 hx)).symm

/-- Neither row has the basic variable of the other. -/
def Apart (r r' : TableauRow ℚ) : Prop :=
  r.equation.coefficient r'.basic = 0 ∧ r'.equation.coefficient r.basic = 0

theorem Apart.symm {r r' : TableauRow ℚ} (h : Apart r r') : Apart r' r :=
  ⟨h.2, h.1⟩

/-- Each basic variable occurs in its own row only, with coefficient one, and not in the
objective. -/
structure Canonical (t : Tableau ℚ) : Prop extends t.Shaped where
  own : ∀ row ∈ t.rows, row.equation.coefficient row.basic = 1
  apart : t.rows.Pairwise Apart
  reduced : ∀ row ∈ t.rows, t.objective.coefficient row.basic = 0

/-- The constants on the right are no less than zero, and with them the values of the variables. -/
def Nonneg (t : Tableau ℚ) : Prop :=
  ∀ row ∈ t.rows, 0 ≤ row.equation.constant

section pivot

variable {t : Tableau ℚ} {a b : List (TableauRow ℚ)} {row other : TableauRow ℚ} {c : ℕ}

theorem Shaped.length_normalise_eq (ht : t.Shaped) (h : t.rows = a ++ row :: b)
    (ho : other ∈ t.rows) : (row.equation.normalise c).coefficients.length =
      other.equation.coefficients.length := by
  rw [Equation.length_normalise, ht.row_length row ((mem_rows_iff h).2 (Or.inl rfl)),
    ht.row_length other ho]

/-- The rule of the rectangle for the coefficients of the other rows. -/
theorem Shaped.coefficient_cleared (ht : t.Shaped) (h : t.rows = a ++ row :: b)
    (ho : other ∈ t.rows) (j : ℕ) :
    (cleared 0 (row.equation.normalise c) c other).equation.coefficient j =
      other.equation.coefficient j - other.equation.coefficient c *
        (row.equation.coefficient j / row.equation.coefficient c) := by
  rw [cleared, Equation.coefficient_eliminate _ _ (ht.length_normalise_eq h ho),
    Equation.coefficient_normalise]

theorem Shaped.gap_cleared (ht : t.Shaped) (h : t.rows = a ++ row :: b) (ho : other ∈ t.rows)
    (x : ℕ → ℚ) : (cleared 0 (row.equation.normalise c) c other).equation.gap t.width x =
      other.equation.gap t.width x - other.equation.coefficient c *
        (row.equation.gap t.width x / row.equation.coefficient c) := by
  rw [cleared, Equation.gap_eliminate _ _ _ (ht.length_normalise_eq h ho), Equation.gap_normalise]

/-- A pivot changes neither the solutions nor the objective at them. -/
theorem Shaped.sameMeaning_pivot (ht : t.Shaped) (h : t.rows = a ++ row :: b)
    (hp : row.equation.coefficient c ≠ 0) : t.SameMeaning (t.pivot 0 a.length c) := by
  have hrow : row ∈ t.rows := (mem_rows_iff h).2 (Or.inl rfl)
  have hsource : ∀ x, (row.equation.normalise c).gap t.width x = 0 ↔
      row.equation.gap t.width x = 0 := fun x => by
    rw [Equation.gap_normalise, div_eq_zero_iff, or_iff_left hp]
  refine ⟨⟨width_pivot .., artificialStart_pivot .., fun x => ⟨fun hx => ?_, fun hx => ?_⟩⟩,
    fun x hx => ?_⟩
  · have hpicked : row.equation.gap t.width x = 0 := by
      have hgap := hx _ ((mem_rows_pivot h).2 (Or.inl rfl))
      rwa [width_pivot, hsource] at hgap
    intro other ho
    rcases (mem_rows_iff h).1 ho with rfl | hab
    · exact hpicked
    · -- the picked equation holds, so nothing has been taken away here
      have hgap := hx _ ((mem_rows_pivot h).2 (Or.inr ⟨other, hab, rfl⟩))
      rwa [width_pivot, ht.gap_cleared h ho, hpicked, zero_div, mul_zero, sub_zero] at hgap
  · intro row' hrow'
    rw [width_pivot]
    rcases (mem_rows_pivot h).1 hrow' with rfl | ⟨other, hab, rfl⟩
    · exact (hsource x).2 (hx row hrow)
    · have ho : other ∈ t.rows := (mem_rows_iff h).2 (Or.inr hab)
      rw [ht.gap_cleared h ho, hx other ho, hx row hrow, zero_div, mul_zero, sub_zero]
  · have hlen : (row.equation.normalise c).coefficients.length =
        t.objective.coefficients.length := by
      rw [Equation.length_normalise, ht.row_length row hrow, ht.objective_length]
    rw [valueAt, valueAt, width_pivot, objective_pivot h, Equation.gap_eliminate _ _ _ hlen,
      (hsource x).2 (hx row hrow), mul_zero, sub_zero]

theorem Canonical.pairwise_split (ht : t.Canonical) (h : t.rows = a ++ row :: b) :
    (∀ other ∈ a ++ b, Apart row other) ∧ (a ++ b).Pairwise Apart := by
  have hall := ht.apart
  rw [h, List.pairwise_middle Apart.symm, List.pairwise_cons] at hall
  exact hall

/-- A pivot at a coefficient that is not zero keeps the tableau canonical. -/
theorem Canonical.pivot (ht : t.Canonical) (h : t.rows = a ++ row :: b) (hc : c < t.width)
    (hp : row.equation.coefficient c ≠ 0) : (t.pivot 0 a.length c).Canonical := by
  obtain ⟨hrow, hrest⟩ := ht.pairwise_split h
  have hmem : ∀ other ∈ a ++ b, other ∈ t.rows := fun other ho => (mem_rows_iff h).2 (Or.inr ho)
  have hown : (row.equation.normalise c).coefficient c = 1 := by
    rw [Equation.coefficient_normalise, div_self hp]
  have hlen : (row.equation.normalise c).coefficients.length = t.objective.coefficients.length := by
    rw [Equation.length_normalise, ht.row_length row ((mem_rows_iff h).2 (Or.inl rfl)),
      ht.objective_length]
  -- the picked row has no basic variable of another, so clearing leaves those coefficients alone
  have hkeep : ∀ other ∈ a ++ b, ∀ r ∈ a ++ b,
      (cleared 0 (row.equation.normalise c) c r).equation.coefficient other.basic =
        r.equation.coefficient other.basic := fun other ho r hr => by
    rw [ht.coefficient_cleared h (hmem r hr), (hrow other ho).1, zero_div, mul_zero, sub_zero]
  refine ⟨ht.toShaped.pivot h 0 hc, fun row' hrow' => ?_, ?_, fun row' hrow' => ?_⟩
  · rcases (mem_rows_pivot h).1 hrow' with rfl | ⟨other, ho, rfl⟩
    · exact hown
    · exact (hkeep other ho other ho).trans (ht.own other (hmem other ho))
  · rw [rows_pivot h, List.pairwise_middle Apart.symm, ← List.map_append, List.pairwise_cons,
      List.forall_mem_map, List.pairwise_map]
    refine ⟨fun other ho => ⟨?_, ?_⟩, hrest.imp_of_mem fun hr hr' hap => ?_⟩
    · rw [cleared, Equation.coefficient_normalise, (hrow other ho).1, zero_div]
    · rw [ht.coefficient_cleared h (hmem other ho), div_self hp, mul_one, sub_self]
    · exact ⟨(hkeep _ hr' _ hr).trans hap.1, (hkeep _ hr _ hr').trans hap.2⟩
  · rw [objective_pivot h, Equation.coefficient_eliminate _ _ hlen]
    rcases (mem_rows_pivot h).1 hrow' with rfl | ⟨other, ho, rfl⟩
    · rw [hown, mul_one, sub_self]
    · rw [cleared, Equation.coefficient_normalise, (hrow other ho).1, zero_div, mul_zero, sub_zero]
      exact ht.reduced other (hmem other ho)

/-- When the picked row is one that limits the entering variable the most, no constant falls below
zero. -/
theorem Nonneg.pivot (hn : t.Nonneg) (h : t.rows = a ++ row :: b)
    (hratio : 0 ≤ row.equation.constant / row.equation.coefficient c)
    (hleast : ∀ other ∈ t.rows, 0 < other.equation.coefficient c →
      row.equation.constant / row.equation.coefficient c ≤
        other.equation.constant / other.equation.coefficient c) :
    (t.pivot 0 a.length c).Nonneg := by
  intro row' hrow'
  rcases (mem_rows_pivot h).1 hrow' with rfl | ⟨other, hab, rfl⟩
  · exact hratio
  · have ho : other ∈ t.rows := (mem_rows_iff h).2 (Or.inr hab)
    rw [cleared, Equation.constant_eliminate, Equation.constant_normalise, sub_nonneg]
    rcases lt_or_ge 0 (other.equation.coefficient c) with hpos | hneg
    · rw [mul_comm, ← le_div_iff₀ hpos]
      exact hleast other ho hpos
    · exact (mul_nonpos_of_nonpos_of_nonneg hneg hratio).trans (hn other ho)

end pivot

/-! ## Points and rays -/

/-- The assignment that gives the basic variable of each row the number that `f` finds for the row,
and zero to all other variables. -/
def spread (t : Tableau ℚ) (f : TableauRow ℚ → ℚ) (j : ℕ) : ℚ :=
  (t.rows.map fun row => if row.basic = j then f row else 0).sum

/-- Only basic variables count in a sum over a spread function. -/
theorem Shaped.sum_mul_spread {t : Tableau ℚ} (ht : t.Shaped) (w : ℕ → ℚ)
    (f : TableauRow ℚ → ℚ) : ∑ j ∈ Finset.range t.width, w j * t.spread f j =
      (t.rows.map fun row => w row.basic * f row).sum := by
  have hlt := ht.basic_lt
  unfold spread
  generalize t.rows = rows at hlt
  induction rows with
  | nil => simp
  | cons row rows ih =>
    have hrow : row.basic ∈ Finset.range t.width :=
      Finset.mem_range.2 (hlt row List.mem_cons_self)
    simp only [List.map_cons, List.sum_cons, mul_add, Finset.sum_add_distrib, mul_ite, mul_zero]
    rw [Finset.sum_ite_eq, if_pos hrow,
      ih fun row' hrow' => hlt row' (List.mem_cons_of_mem _ hrow')]

theorem sum_map_split {rows a b : List (TableauRow ℚ)} {row : TableauRow ℚ}
    (h : rows = a ++ row :: b) {g : TableauRow ℚ → ℚ} (hg : ∀ other ∈ a ++ b, g other = 0) :
    (rows.map g).sum = g row := by
  have hzero : ∀ l : List (TableauRow ℚ), (∀ other ∈ l, other ∈ a ++ b) → (l.map g).sum = 0 :=
    fun l hl => List.sum_eq_zero (List.forall_mem_map.2 fun other ho => hg other (hl other ho))
  rw [h, List.map_append, List.map_cons, List.sum_append, List.sum_cons,
    hzero a fun other ho => List.mem_append_left b ho,
    hzero b fun other ho => List.mem_append_right a ho, zero_add, add_zero]

/-- A row mentions no basic variable but its own. -/
theorem Canonical.sum_row {t : Tableau ℚ} (ht : t.Canonical) {row : TableauRow ℚ}
    (hrow : row ∈ t.rows) (f : TableauRow ℚ → ℚ) :
    ∑ j ∈ Finset.range t.width, row.equation.coefficient j * t.spread f j = f row := by
  obtain ⟨a, b, h⟩ := List.append_of_mem hrow
  rw [ht.sum_mul_spread, sum_map_split h, ht.own row hrow, one_mul]
  intro other ho
  rw [((ht.pairwise_split h).1 other ho).1, zero_mul]

theorem Canonical.sum_objective {t : Tableau ℚ} (ht : t.Canonical) (f : TableauRow ℚ → ℚ) :
    ∑ j ∈ Finset.range t.width, t.objective.coefficient j * t.spread f j = 0 := by
  rw [ht.sum_mul_spread]
  refine List.sum_eq_zero ?_
  rw [List.forall_mem_map]
  intro row hrow
  rw [ht.reduced row hrow, zero_mul]

/-- The values of the variables at the basis. -/
def point (t : Tableau ℚ) : ℕ → ℚ :=
  t.spread (·.equation.constant)

theorem Canonical.solves_point {t : Tableau ℚ} (ht : t.Canonical) : t.Solves t.point := by
  intro row hrow
  rw [Equation.gap, point, ht.sum_row hrow, sub_self]

/-- At the point of a canonical tableau the objective is its constant. -/
theorem Canonical.valueAt_point {t : Tableau ℚ} (ht : t.Canonical) :
    t.valueAt t.point = t.objective.constant := by
  rw [valueAt, Equation.gap, point, ht.sum_objective, zero_sub, neg_neg]

theorem Nonneg.point_nonneg {t : Tableau ℚ} (hn : t.Nonneg) (j : ℕ) : 0 ≤ t.point j := by
  refine List.sum_nonneg ?_
  rw [List.forall_mem_map]
  intro row hrow
  split
  · exact hn row hrow
  · exact le_rfl

/-- The values when `c` is raised by `s` and the basic variables follow. -/
def ray (t : Tableau ℚ) (c : ℕ) (s : ℚ) (j : ℕ) : ℚ :=
  t.point j + s * ((if j = c then 1 else 0) - t.spread (·.equation.coefficient c) j)

/-- Along a ray an equation is missed by a linear function of the way gone. -/
theorem gap_ray (t : Tableau ℚ) {c : ℕ} (hc : c < t.width) (s : ℚ) (e : Equation ℚ) :
    e.gap t.width (t.ray c s) = e.gap t.width t.point + s * (e.coefficient c -
      ∑ j ∈ Finset.range t.width, e.coefficient j * t.spread (·.equation.coefficient c) j) := by
  have hsingle : ∑ j ∈ Finset.range t.width, e.coefficient j * (if j = c then 1 else 0) =
      e.coefficient c := by
    simp only [mul_ite, mul_one, mul_zero]
    rw [Finset.sum_ite_eq', if_pos (Finset.mem_range.2 hc)]
  rw [← hsingle, ← Finset.sum_sub_distrib, Finset.mul_sum, Equation.gap, Equation.gap,
    sub_add_eq_add_sub, ← Finset.sum_add_distrib]
  congr 1
  refine Finset.sum_congr rfl fun j _ => ?_
  rw [ray]
  ring

theorem Canonical.solves_ray {t : Tableau ℚ} (ht : t.Canonical) {c : ℕ} (hc : c < t.width) (s : ℚ) :
    t.Solves (t.ray c s) := by
  intro row hrow
  rw [gap_ray t hc, ht.solves_point row hrow, ht.sum_row hrow, sub_self, mul_zero, add_zero]

/-- Along a ray the objective changes with the coefficient of its column. -/
theorem Canonical.valueAt_ray {t : Tableau ℚ} (ht : t.Canonical) {c : ℕ} (hc : c < t.width)
    (s : ℚ) : t.valueAt (t.ray c s) =
      t.objective.constant - s * t.objective.coefficient c := by
  have hpoint := ht.valueAt_point
  rw [valueAt] at hpoint
  rw [valueAt, gap_ray t hc, ht.sum_objective, sub_zero, neg_add, hpoint, sub_eq_add_neg]

/-- A ray that no row limits never becomes negative. -/
theorem Nonneg.ray_nonneg {t : Tableau ℚ} (hn : t.Nonneg) {c : ℕ}
    (hcol : ∀ row ∈ t.rows, row.equation.coefficient c ≤ 0) {s : ℚ} (hs : 0 ≤ s) (j : ℕ) :
    0 ≤ t.ray c s j := by
  have hspread : t.spread (·.equation.coefficient c) j ≤ 0 := by
    refine (List.sum_le_card_nsmul _ 0 ?_).trans_eq (nsmul_zero _)
    rw [List.forall_mem_map]
    intro row hrow
    split
    · exact hcol row hrow
    · exact le_rfl
  have hone : (0 : ℚ) ≤ if j = c then 1 else 0 := by
    split
    · exact zero_le_one
    · exact le_rfl
  exact add_nonneg (hn.point_nonneg j) (mul_nonneg hs (sub_nonneg.2 (hspread.trans hone)))

end Tableau

end WorstCase
