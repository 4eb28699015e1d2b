import Mathlib.Algebra.BigOperators.Ring.Finset
import Mathlib.Data.List.GetD
import Mathlib.Tactic.Ring
import WorstCase.Proofs.Linear.Built
import WorstCase.Proofs.Linear.Optimum

/-!
# Rows over shifted columns

Values for the columns of a problem are their lower bounds and what lies above them (`raised`). A
dense row holds of what lies above the bounds when the row of the problem that it comes from holds
of the values (`DenseRow.holds_ofRow_iff`), and so do the rows that upper bounds are turned into.
Together they say what it is to be feasible in a box (`Problem.feasibleIn_raised_iff`).
-/

namespace WorstCase

/-! ## Products of coefficients and values -/

/-- The coefficients times the values, summed up. -/
def dot (coefficients : List ℚ) (x : ℕ → ℚ) : ℚ :=
  ∑ j ∈ Finset.range coefficients.length, coefficients.getD j 0 * x j

theorem sum_range_eq_dot {coefficients : List ℚ} {n : ℕ} (h : coefficients.length ≤ n) (x : ℕ → ℚ) :
    ∑ j ∈ Finset.range n, coefficients.getD j 0 * x j = dot coefficients x := by
  refine (Finset.sum_subset (Finset.range_subset_range.2 h) fun j _ hj => ?_).symm
  rw [List.getD_eq_default _ _ (not_lt.1 (mt Finset.mem_range.2 hj)), zero_mul]

/-- Changing one coefficient changes the product by that much of one variable. -/
theorem dot_add_single {cs ds : List ℚ} {c : ℕ} {v : ℚ} (hc : c < cs.length)
    (hlen : ds.length = cs.length)
    (h : ∀ j < cs.length, ds.getD j 0 = cs.getD j 0 + if j = c then v else 0) (x : ℕ → ℚ) :
    dot ds x = dot cs x + v * x c := by
  have hterm : ∀ j ∈ Finset.range cs.length,
      ds.getD j 0 * x j = cs.getD j 0 * x j + if j = c then v * x c else 0 := by
    intro j hj
    rw [h j (Finset.mem_range.1 hj), add_mul]
    split
    · next heq => rw [heq]
    · rw [zero_mul]
  rw [dot, hlen, Finset.sum_congr rfl hterm, Finset.sum_add_distrib, Finset.sum_ite_eq',
    if_pos (Finset.mem_range.2 hc), dot]

theorem dot_modify {cs : List ℚ} {c : ℕ} (hc : c < cs.length) (v : ℚ) (x : ℕ → ℚ) :
    dot (cs.modify c (· + v)) x = dot cs x + v * x c := by
  refine dot_add_single hc (List.length_modify ..) (fun j hj => ?_) x
  rw [List.getD_eq_getElem _ _ (by simpa using hj), List.getElem_modify,
    List.getD_eq_getElem _ _ hj]
  by_cases heq : c = j
  · rw [if_pos heq, if_pos heq.symm]
  · rw [if_neg heq, if_neg (Ne.symm heq), add_zero]

theorem dot_set {cs : List ℚ} {c : ℕ} (hc : c < cs.length) (v : ℚ) (x : ℕ → ℚ) :
    dot (cs.set c v) x = dot cs x + (v - cs.getD c 0) * x c := by
  refine dot_add_single hc (List.length_set ..) (fun j hj => ?_) x
  rw [List.getD_eq_getElem _ _ (by simpa using hj), List.getElem_set, List.getD_eq_getElem _ _ hj,
    List.getD_eq_getElem _ _ hc]
  by_cases heq : c = j
  · subst heq
    rw [if_pos rfl, if_pos rfl, add_sub_cancel]
  · rw [if_neg heq, if_neg (Ne.symm heq), add_zero]

theorem getD_replicate_zero (n j : ℕ) : (List.replicate n (0 : ℚ)).getD j 0 = 0 := by
  rcases lt_or_ge j n with hlt | hge
  · exact List.getD_replicate 0 hlt
  · exact List.getD_eq_default _ _ (by simpa using hge)

theorem dot_replicate_zero (n : ℕ) (x : ℕ → ℚ) : dot (List.replicate n 0) x = 0 :=
  Finset.sum_eq_zero fun j _ => by rw [getD_replicate_zero, zero_mul]

theorem getD_append_zeros (cs : List ℚ) (n j : ℕ) :
    (cs ++ List.replicate n 0).getD j 0 = cs.getD j 0 := by
  rcases lt_or_ge j cs.length with hlt | hge
  · rw [List.getD_append _ _ _ _ hlt]
  · rw [List.getD_append_right _ _ _ _ hge, getD_replicate_zero, List.getD_eq_default _ _ hge]

theorem dot_append_zeros (cs : List ℚ) (n : ℕ) (x : ℕ → ℚ) :
    dot (cs ++ List.replicate n 0) x = dot cs x := by
  have hle : cs.length ≤ (cs ++ List.replicate n (0 : ℚ)).length := by
    rw [List.length_append]
    exact Nat.le_add_right ..
  rw [← sum_range_eq_dot hle x]
  exact Finset.sum_congr rfl fun j _ => by rw [getD_append_zeros]

theorem dot_map_neg (cs : List ℚ) (x : ℕ → ℚ) : dot (cs.map (- ·)) x = -dot cs x := by
  rw [dot, dot, List.length_map, ← Finset.sum_neg_distrib]
  refine Finset.sum_congr rfl fun j _ => ?_
  rw [← neg_mul, ← List.getD_map (f := fun c : ℚ => -c), neg_zero]

theorem dot_congr {cs : List ℚ} {x y : ℕ → ℚ} (h : ∀ j < cs.length, x j = y j) :
    dot cs x = dot cs y :=
  Finset.sum_congr rfl fun j hj => by rw [h j (Finset.mem_range.1 hj)]

theorem dot_cons (c : ℚ) (cs : List ℚ) (x : ℕ → ℚ) :
    dot (c :: cs) x = c * x 0 + dot cs fun j => x (j + 1) := by
  rw [dot, List.length_cons, Finset.sum_range_succ', add_comm]
  rfl

/-! ## Values above lower bounds -/

/-- The values that lie `x` above the bounds. -/
def raised (lower : List ℚ) (x : ℕ → ℚ) : List ℚ :=
  lower.mapIdx fun i l => l + x i

theorem length_raised (lower : List ℚ) (x : ℕ → ℚ) : (raised lower x).length = lower.length :=
  List.length_mapIdx ..

theorem getElem?_raised (lower : List ℚ) (x : ℕ → ℚ) (i : ℕ) :
    (raised lower x)[i]? = lower[i]?.map (· + x i) :=
  List.getElem?_mapIdx ..

theorem raised_congr {lower : List ℚ} {x y : ℕ → ℚ} (h : ∀ i < lower.length, x i = y i) :
    raised lower x = raised lower y := by
  refine List.ext_getElem? fun i => ?_
  rw [getElem?_raised, getElem?_raised]
  rcases lt_or_ge i lower.length with hlt | hge
  · rw [h i hlt]
  · rw [List.getElem?_eq_none hge, Option.map_none, Option.map_none]

/-- Every list of values is its lower bounds raised by what is left. -/
theorem raised_sub {lower values : List ℚ} (h : values.length = lower.length) :
    raised lower (fun i => values.getD i 0 - lower.getD i 0) = values := by
  refine List.ext_getElem ((length_raised _ _).trans h.symm) fun i hi hi' => ?_
  simp only [raised]
  rw [List.getElem_mapIdx, List.getD_eq_getElem _ _ hi', List.getD_eq_getElem _ _ (h ▸ hi'),
    add_sub_cancel]

/-- The objective at raised bounds is the objective at the bounds and what is added. -/
theorem sum_zipWith_raised (costs lower : List ℚ) (h : lower.length = costs.length) (x : ℕ → ℚ) :
    (List.zipWith (· * ·) costs (raised lower x)).sum =
      (List.zipWith (· * ·) costs lower).sum + dot costs x := by
  induction costs generalizing lower x with
  | nil => simp [dot]
  | cons c costs ih =>
    obtain ⟨l, lower, rfl⟩ := List.exists_cons_of_length_eq_add_one h
    have hraised : raised (l :: lower) x = (l + x 0) :: raised lower fun j => x (j + 1) :=
      List.mapIdx_cons ..
    rw [hraised, List.zipWith_cons_cons, List.zipWith_cons_cons, List.sum_cons, List.sum_cons,
      ih lower (Nat.succ.inj h), dot_cons]
    ring

/-! ## Dense rows -/

/-- Changing all signs turns a comparison round. -/
theorem Comparison.rel_flip_neg {c : Comparison} {a b : ℚ} : c.flip.Rel (-a) (-b) ↔ c.Rel a b := by
  cases c with
  | atMost => exact neg_le_neg_iff
  | equal => exact neg_inj
  | atLeast => exact neg_le_neg_iff

theorem Comparison.rel_sub_right {c : Comparison} {a b d : ℚ} :
    c.Rel a (b - d) ↔ c.Rel (d + a) b := by
  cases c with
  | atMost => exact le_sub_iff_add_le'
  | equal => exact eq_sub_iff_add_eq'
  | atLeast => exact sub_le_iff_le_add'

namespace DenseRow

/-- The row holds of values above the lower bounds. -/
def Holds (d : DenseRow ℚ) (x : ℕ → ℚ) : Prop :=
  d.comparison.Rel (dot d.coefficients x) d.rhs

/-- Orienting a row changes its signs if its right-hand side is negative. -/
theorem orient_cases (d : DenseRow ℚ) :
    (d.rhs < 0 ∧ d.orient = ⟨d.coefficients.map (- ·), d.comparison.flip, -d.rhs⟩) ∨
      (0 ≤ d.rhs ∧ d.orient = d) := by
  by_cases h : d.rhs < 0
  · exact Or.inl ⟨h, if_pos h⟩
  · exact Or.inr ⟨not_lt.1 h, if_neg h⟩

/-- Orienting a row does not change what satisfies it. -/
theorem holds_orient_iff (d : DenseRow ℚ) (x : ℕ → ℚ) : d.orient.Holds x ↔ d.Holds x := by
  rcases d.orient_cases with ⟨-, heq⟩ | ⟨-, heq⟩
  · rw [heq, Holds, Holds, dot_map_neg]
    exact Comparison.rel_flip_neg
  · rw [heq]

/-- After orienting, the right-hand side can be the value of a basic variable. -/
theorem rhs_orient_nonneg (d : DenseRow ℚ) : 0 ≤ d.orient.rhs := by
  rcases d.orient_cases with ⟨hneg, heq⟩ | ⟨hpos, heq⟩
  · rw [heq]
    exact (neg_pos.2 hneg).le
  · rwa [heq]

section length

variable {α : Type} [Scalar α]

theorem length_orient (d : DenseRow α) : d.orient.coefficients.length = d.coefficients.length := by
  unfold orient
  split
  · exact List.length_map ..
  · rfl

/-- Adds a term of a row to a dense row. -/
def addTerm (lower : List α) (d : DenseRow α) (term : ℕ × α) : DenseRow α :=
  { d with
    coefficients := d.coefficients.modify (term.1 - 1) (· + term.2)
    rhs := d.rhs - term.2 * lower.getD (term.1 - 1) 0 }

theorem ofRow_eq (columns : ℕ) (lower : List α) (row : Row α) : ofRow columns lower row =
    row.terms.foldl (addTerm lower) ⟨List.replicate columns 0, row.comparison, row.rhs⟩ :=
  rfl

theorem length_foldl_addTerm (lower : List α) (terms : List (ℕ × α)) (d : DenseRow α) :
    (terms.foldl (addTerm lower) d).coefficients.length = d.coefficients.length := by
  induction terms generalizing d with
  | nil => rfl
  | cons term terms ih => rw [List.foldl_cons, ih, addTerm, List.length_modify]

theorem length_ofRow (columns : ℕ) (lower : List α) (row : Row α) :
    (ofRow columns lower row).coefficients.length = columns := by
  rw [ofRow_eq, length_foldl_addTerm, List.length_replicate]

/-- There is one row for each upper bound. -/
theorem mem_ofUpper_iff {columns : ℕ} {lower : List α} {upper : List (Option α)} {d : DenseRow α} :
    d ∈ ofUpper columns lower upper ↔ ∃ (i : ℕ) (u : α), upper[i]? = some (some u) ∧
      d = ⟨(List.replicate columns 0).set i 1, .atMost, u - lower.getD i 0⟩ := by
  simp only [ofUpper, List.mem_filterMap, Prod.exists, List.mem_zipIdx_iff_getElem?,
    Option.map_eq_some_iff]
  constructor
  · rintro ⟨bound?, i, hi, u, rfl, rfl⟩
    exact ⟨i, u, hi, rfl⟩
  · rintro ⟨i, u, hi, rfl⟩
    exact ⟨some u, i, hi, u, rfl, rfl⟩

end length

/-- Each term adds its value above the bound on the left, and takes away its value at the bound on
the right. -/
theorem foldl_addTerm (lower : List ℚ) (x : ℕ → ℚ) {terms : List (ℕ × ℚ)} {d : DenseRow ℚ}
    (h : ∀ term ∈ terms, 0 < term.1 ∧ term.1 ≤ d.coefficients.length) :
    (terms.foldl (addTerm lower) d).comparison = d.comparison ∧
    dot (terms.foldl (addTerm lower) d).coefficients x =
      dot d.coefficients x + (terms.map fun term => term.2 * x (term.1 - 1)).sum ∧
    (terms.foldl (addTerm lower) d).rhs =
      d.rhs - (terms.map fun term => term.2 * lower.getD (term.1 - 1) 0).sum := by
  induction terms generalizing d with
  | nil => simp
  | cons term terms ih =>
    have hterm := h term List.mem_cons_self
    have hlen : (addTerm lower d term).coefficients.length = d.coefficients.length :=
      List.length_modify ..
    have hdot : dot (addTerm lower d term).coefficients x =
        dot d.coefficients x + term.2 * x (term.1 - 1) := dot_modify (by omega) _ x
    have hrhs : (addTerm lower d term).rhs = d.rhs - term.2 * lower.getD (term.1 - 1) 0 := rfl
    obtain ⟨hcmp, hleft, hright⟩ := ih (d := addTerm lower d term) fun t ht =>
      hlen ▸ h t (List.mem_cons_of_mem _ ht)
    refine ⟨hcmp, ?_, ?_⟩
    · rw [List.foldl_cons, hleft, hdot, List.map_cons, List.sum_cons, add_assoc]
    · rw [List.foldl_cons, hright, hrhs, List.map_cons, List.sum_cons, sub_sub]

/-- A row holds of the distances from the lower bounds if it holds of the values. -/
theorem holds_ofRow_iff {lower : List ℚ} {row : Row ℚ}
    (h : ∀ term ∈ row.terms, 0 < term.1 ∧ term.1 ≤ lower.length) (x : ℕ → ℚ) :
    (ofRow lower.length lower row).Holds x ↔
      row.comparison.Rel (row.activity (raised lower x)) row.rhs := by
  have hterms : ∀ term ∈ row.terms,
      0 < term.1 ∧ term.1 ≤ (List.replicate lower.length (0 : ℚ)).length := by
    rwa [List.length_replicate]
  obtain ⟨hcmp, hleft, hright⟩ := foldl_addTerm lower x
    (d := ⟨List.replicate lower.length 0, row.comparison, row.rhs⟩) hterms
  rw [Holds, ofRow_eq, hcmp, hleft, hright, dot_replicate_zero, zero_add, Comparison.rel_sub_right,
    Row.activity_eq_sum, ← List.sum_map_add]
  refine Iff.of_eq (congrArg (row.comparison.Rel · row.rhs) (congrArg List.sum ?_))
  refine List.map_congr_left fun term hterm => ?_
  obtain ⟨hpos, hle⟩ := h term hterm
  have hlt : term.1 - 1 < lower.length := by omega
  rw [valueAt?, if_neg hpos.ne', getElem?_raised, List.getElem?_eq_getElem hlt, Option.map_some,
    Option.getD_some, List.getD_eq_getElem _ _ hlt, mul_add]

/-- The row of an upper bound says that the value keeps it. -/
theorem holds_upper_iff {columns i : ℕ} (hi : i < columns) (u l : ℚ) (x : ℕ → ℚ) :
    Holds ⟨(List.replicate columns 0).set i 1, .atMost, u - l⟩ x ↔ l + x i ≤ u := by
  have hdot : dot ((List.replicate columns (0 : ℚ)).set i 1) x = x i := by
    rw [dot_set (by simpa using hi), dot_replicate_zero, getD_replicate_zero, zero_add,
      sub_zero, one_mul]
  rw [Holds, hdot]
  exact le_sub_iff_add_le'

end DenseRow

namespace Problem

section length

variable {α : Type} [Scalar α] {p : Problem α} {box : Box α}

/-- The rows of the problem and the upper bounds of the box over the shifted columns. -/
def dense (p : Problem α) (box : Box α) : List (DenseRow α) :=
  p.rows.map (DenseRow.ofRow p.columns.length box.lower) ++
    DenseRow.ofUpper p.columns.length box.lower box.upper

theorem length_of_mem_dense {d : DenseRow α} (h : d ∈ p.dense box) :
    d.coefficients.length = p.columns.length := by
  rcases List.mem_append.1 h with h | h
  · obtain ⟨row, -, rfl⟩ := List.mem_map.1 h
    exact DenseRow.length_ofRow ..
  · obtain ⟨i, u, -, rfl⟩ := DenseRow.mem_ofUpper_iff.1 h
    rw [List.length_set, List.length_replicate]

end length

/-- Values are feasible if their distances from the lower bounds are not negative and satisfy the
dense rows. -/
theorem feasibleIn_raised_iff {p : Problem ℚ} (hp : p.Known) {box : Box ℚ} (hbox : box.Fits p)
    (x : ℕ → ℚ) : p.FeasibleIn box (raised box.lower x) ↔
      (∀ i < p.columns.length, 0 ≤ x i) ∧ ∀ d ∈ p.dense box, d.Holds x := by
  have hlen := hbox.lower_length
  have hrow : ∀ row ∈ p.rows, (DenseRow.ofRow p.columns.length box.lower row).Holds x ↔
      row.comparison.holds 0 (row.activity (raised box.lower x)) row.rhs := fun row hr => by
    rw [Comparison.holds_zero_iff, ← hlen]
    exact DenseRow.holds_ofRow_iff (hlen.symm ▸ hp row hr) x
  have hget : ∀ {i : ℕ} {l : ℚ}, box.lower[i]? = some l →
      (raised box.lower x)[i]? = some (l + x i) := fun hl => by rw [getElem?_raised, hl]; rfl
  have hlower : ∀ {i : ℕ}, i < p.columns.length → ∃ l, box.lower[i]? = some l := fun hi =>
    ⟨_, List.getElem?_eq_getElem (hlen.symm ▸ hi)⟩
  have hupper : ∀ {i : ℕ} {u : ℚ}, box.upper[i]? = some (some u) → i < p.columns.length :=
    fun hu => hbox.upper_length ▸ (List.getElem?_eq_some_iff.1 hu).1
  constructor
  · intro h
    refine ⟨fun i hi => ?_, fun d hd => ?_⟩
    · obtain ⟨l, hl⟩ := hlower hi
      exact nonneg_of_le_add_right (h.lower i l _ hl (hget hl))
    · rcases List.mem_append.1 hd with hd | hd
      · obtain ⟨row, hr, rfl⟩ := List.mem_map.1 hd
        exact (hrow row hr).2 (h.rows row hr)
      · obtain ⟨i, u, hu, rfl⟩ := DenseRow.mem_ofUpper_iff.1 hd
        obtain ⟨l, hl⟩ := hlower (hupper hu)
        rw [DenseRow.holds_upper_iff (hupper hu), List.getD_eq_getElem?_getD, hl]
        exact h.upper i u _ hu (hget hl)
  · rintro ⟨hpos, hdense⟩
    refine ⟨(length_raised ..).trans hlen, fun i l v hl hv => ?_, fun i u v hu hv => ?_,
      fun row hr => ?_⟩
    · rw [hget hl, Option.some.injEq] at hv
      have hi : i < p.columns.length := hlen ▸ (List.getElem?_eq_some_iff.1 hl).1
      exact hv ▸ le_add_of_nonneg_right (hpos i hi)
    · obtain ⟨l, hl⟩ := hlower (hupper hu)
      have hd := hdense _ (List.mem_append_right _ (DenseRow.mem_ofUpper_iff.2 ⟨i, u, hu, rfl⟩))
      rw [DenseRow.holds_upper_iff (hupper hu), List.getD_eq_getElem?_getD, hl] at hd
      rw [hget hl, Option.some.injEq] at hv
      exact hv ▸ hd
    · exact (hrow row hr).1 (hdense _ (List.mem_append_left _ (List.mem_map.2 ⟨row, hr, rfl⟩)))

end Problem

end WorstCase
