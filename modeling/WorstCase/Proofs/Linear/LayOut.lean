import WorstCase.Proofs.Linear.Dense
import WorstCase.Proofs.Linear.Phases

/-!
# The starting tableau

Each dense row becomes an equation by a slack of its own, unless it is one already, and starts with
that slack or with an artificial variable of its own in the basis. There is room for all of them
(`Tableau.Room`), so the starting tableau has a feasible basis (`Tableau.feasible_ofProblem`). What
it admits is what is feasible in the box: values above the lower bounds, with slacks that can be
chosen to fit (`Problem.feasibleIn_of_admits`, `Problem.exists_admits`).
-/

namespace WorstCase

theorem gap_eq_dot {e : Equation ℚ} {width : ℕ} (h : e.coefficients.length ≤ width) (x : ℕ → ℚ) :
    e.gap width x = dot e.coefficients x - e.constant := by
  rw [← sum_range_eq_dot h]
  rfl

theorem getD_set_self {cs : List ℚ} {c : ℕ} (h : c < cs.length) (v : ℚ) :
    (cs.set c v).getD c 0 = v := by
  rw [List.getD_eq_getElem _ _ (by simpa using h), List.getElem_set_self]

theorem getD_set_of_ne {cs : List ℚ} {c j : ℕ} (h : c ≠ j) (v : ℚ) :
    (cs.set c v).getD j 0 = cs.getD j 0 := by
  rw [List.getD_eq_getElem?_getD, List.getElem?_set_ne h, List.getD_eq_getElem?_getD]

/-- The coefficient of the slack in a row with this comparison. -/
def Comparison.slackFactor : Comparison → ℚ
  | .atMost => 1
  | .equal => 0
  | .atLeast => -1

/-- The coefficient of the artificial variable in a row with this comparison. -/
def Comparison.artificialFactor : Comparison → ℚ
  | .atMost => 0
  | .equal => 1
  | .atLeast => 1

/-- A comparison with a slack that is not negative holds. -/
theorem Comparison.rel_of_slack {c : Comparison} {a b s : ℚ} (h : a + c.slackFactor * s = b)
    (hs : 0 ≤ s) : c.Rel a b := by
  cases c with
  | atMost =>
    rw [slackFactor, one_mul] at h
    exact h ▸ le_add_of_nonneg_right hs
  | equal =>
    rw [slackFactor, zero_mul, add_zero] at h
    exact h
  | atLeast =>
    rw [slackFactor, neg_one_mul] at h
    exact h ▸ add_le_of_nonpos_right (neg_nonpos.2 hs)

/-- A comparison that holds leaves a slack that is not negative. -/
theorem Comparison.exists_slack {c : Comparison} {a b : ℚ} (h : c.Rel a b) :
    ∃ s, 0 ≤ s ∧ a + c.slackFactor * s = b := by
  cases c with
  | atMost => exact ⟨b - a, sub_nonneg.2 h, by rw [slackFactor, one_mul, add_sub_cancel]⟩
  | equal => exact ⟨0, le_rfl, by rw [mul_zero, add_zero]; exact h⟩
  | atLeast =>
    exact ⟨a - b, sub_nonneg.2 h, by rw [slackFactor, neg_one_mul, neg_sub, add_sub_cancel]⟩

namespace Tableau

/-! ## One row -/

/-- The first slack that is free after a row with this comparison. -/
def slackAfter (c : Comparison) (slack : ℕ) : ℕ :=
  if c = .equal then slack else slack + 1

def artificialAfter (c : Comparison) (artificial : ℕ) : ℕ :=
  if c = .atMost then artificial else artificial + 1

theorem le_slackAfter (c : Comparison) (slack : ℕ) : slack ≤ slackAfter c slack := by
  unfold slackAfter
  split <;> omega

theorem le_artificialAfter (c : Comparison) (artificial : ℕ) :
    artificial ≤ artificialAfter c artificial := by
  unfold artificialAfter
  split <;> omega

section shape

variable {α : Type}

/-- There is room for the slacks of `dense` from `slack` to `start`, and for its artificial
variables from `artificial` to `width`. -/
structure Room (columns start width : ℕ) (dense : List (DenseRow α)) (slack artificial : ℕ) :
    Prop where
  length_eq : ∀ d ∈ dense, d.coefficients.length = columns
  columns_le : columns ≤ slack
  slack_le : slack + dense.countP (·.comparison != .equal) ≤ start
  start_le : start ≤ artificial
  artificial_le : artificial + dense.countP (·.comparison != .atMost) ≤ width

variable {columns start width slack artificial : ℕ} {d : DenseRow α} {rest : List (DenseRow α)}

theorem Room.tail (h : Room columns start width (d :: rest) slack artificial) :
    Room columns start width rest (slackAfter d.comparison slack)
      (artificialAfter d.comparison artificial) := by
  obtain ⟨hlen, hcol, hslack, hstart, hart⟩ := h
  rw [List.countP_cons] at hslack hart
  refine ⟨fun e he => hlen e (List.mem_cons_of_mem _ he), ?_, ?_, ?_, ?_⟩ <;>
    cases hc : d.comparison <;> simp [hc, slackAfter, artificialAfter] at hslack hart ⊢ <;> omega

theorem Room.slackAfter_le (h : Room columns start width (d :: rest) slack artificial) :
    slackAfter d.comparison slack ≤ start :=
  (Nat.le_add_right ..).trans h.tail.slack_le

theorem Room.artificialAfter_le (h : Room columns start width (d :: rest) slack artificial) :
    artificialAfter d.comparison artificial ≤ width :=
  (Nat.le_add_right ..).trans h.tail.artificial_le

theorem Room.columns_le_width (h : Room columns start width (d :: rest) slack artificial) :
    columns ≤ width :=
  h.columns_le.trans ((Nat.le_add_right ..).trans (h.slack_le.trans (h.start_le.trans
    ((Nat.le_add_right ..).trans h.artificial_le))))

theorem Room.length_le (h : Room columns start width (d :: rest) slack artificial) :
    d.coefficients.length ≤ width :=
  h.length_eq d List.mem_cons_self ▸ h.columns_le_width

variable [Scalar α]

/-- The row of the tableau that a dense row starts as. -/
def laid (width slack artificial : ℕ) (d : DenseRow α) : TableauRow α :=
  let coefficients := d.coefficients ++ List.replicate (width - d.coefficients.length) 0
  match d.comparison with
  | .atMost => ⟨⟨coefficients.set slack 1, d.rhs⟩, slack⟩
  | .atLeast => ⟨⟨(coefficients.set slack (-1)).set artificial 1, d.rhs⟩, artificial⟩
  | .equal => ⟨⟨coefficients.set artificial 1, d.rhs⟩, artificial⟩

/-- Each row takes its slack and artificial variables from where the last one stopped. -/
theorem layOut_cons (width : ℕ) (d : DenseRow α) (rest : List (DenseRow α)) (slack artificial : ℕ) :
    layOut width (d :: rest) slack artificial = laid width slack artificial d ::
      layOut width rest (slackAfter d.comparison slack)
        (artificialAfter d.comparison artificial) := by
  obtain ⟨cs, c, r⟩ := d
  cases c <;> rfl

/-- The coefficients of a dense row with zeros for the variables that it does not have. -/
def padded (width : ℕ) (d : DenseRow α) : List α :=
  d.coefficients ++ List.replicate (width - d.coefficients.length) 0

theorem Room.length_padded (h : Room columns start width (d :: rest) slack artificial) :
    (padded width d).length = width := by
  rw [padded, List.length_append, List.length_replicate, Nat.add_sub_cancel' h.length_le]

/-- An upper limit has a slack, which is basic. A lower limit has a slack and an artificial
variable, an equation only the latter, which is then basic. -/
theorem laid_cases (width slack artificial : ℕ) (d : DenseRow α) :
    (d.comparison = .atMost ∧ laid width slack artificial d =
      ⟨⟨(padded width d).set slack 1, d.rhs⟩, slack⟩) ∨
    (d.comparison = .atLeast ∧ laid width slack artificial d =
      ⟨⟨((padded width d).set slack (-1)).set artificial 1, d.rhs⟩, artificial⟩) ∨
    (d.comparison = .equal ∧ laid width slack artificial d =
      ⟨⟨(padded width d).set artificial 1, d.rhs⟩, artificial⟩) := by
  obtain ⟨cs, c, r⟩ := d
  cases c with
  | atMost => exact Or.inl ⟨rfl, rfl⟩
  | equal => exact Or.inr (Or.inr ⟨rfl, rfl⟩)
  | atLeast => exact Or.inr (Or.inl ⟨rfl, rfl⟩)

theorem length_laid (h : Room columns start width (d :: rest) slack artificial) :
    (laid width slack artificial d).equation.coefficients.length = width := by
  have hpad := h.length_padded
  rcases laid_cases width slack artificial d with ⟨-, heq⟩ | ⟨-, heq⟩ | ⟨-, heq⟩ <;>
    rw [heq] <;> simpa only [List.length_set] using hpad

/-- The basic variable of a row is one of those that the row has taken. -/
theorem basic_laid (width slack artificial : ℕ) (d : DenseRow α) :
    (slack ≤ (laid width slack artificial d).basic ∧
      (laid width slack artificial d).basic < slackAfter d.comparison slack) ∨
    (artificial ≤ (laid width slack artificial d).basic ∧
      (laid width slack artificial d).basic < artificialAfter d.comparison artificial) := by
  rcases laid_cases width slack artificial d with ⟨hc, heq⟩ | ⟨hc, heq⟩ | ⟨hc, heq⟩ <;>
    simp [heq, hc, slackAfter, artificialAfter]

theorem constant_laid (width slack artificial : ℕ) (d : DenseRow α) :
    (laid width slack artificial d).equation.constant = d.rhs := by
  rcases laid_cases width slack artificial d with ⟨-, heq⟩ | ⟨-, heq⟩ | ⟨-, heq⟩ <;> rw [heq]

end shape

section row

variable {columns start width slack artificial : ℕ} {d : DenseRow ℚ} {rest : List (DenseRow ℚ)}

theorem Room.artificialFactor_mul (h : Room columns start width (d :: rest) slack artificial)
    {x : ℕ → ℚ} (hz : ∀ j, start ≤ j → j < width → x j = 0) :
    d.comparison.artificialFactor * x artificial = 0 := by
  have ha := h.artificialAfter_le
  cases hc : d.comparison with
  | atMost => rw [Comparison.artificialFactor, zero_mul]
  | equal =>
    rw [hc] at ha
    rw [hz artificial h.start_le ha, mul_zero]
  | atLeast =>
    rw [hc] at ha
    rw [hz artificial h.start_le ha, mul_zero]

theorem getD_padded (width : ℕ) {j : ℕ} (h : d.coefficients.length ≤ j) :
    (padded width d).getD j 0 = 0 := by
  rw [padded, getD_append_zeros, List.getD_eq_default _ _ h]

/-- What a laid out row is missed by is its constraint with the slack and the artificial variable
filled in. -/
theorem gap_laid (h : Room columns start width (d :: rest) slack artificial) (x : ℕ → ℚ) :
    (laid width slack artificial d).equation.gap width x =
      dot d.coefficients x + d.comparison.slackFactor * x slack +
        d.comparison.artificialFactor * x artificial - d.rhs := by
  have hlen := h.length_eq d List.mem_cons_self
  have hpad := h.length_padded
  have hdot : dot (padded width d) x = dot d.coefficients x := dot_append_zeros ..
  have hzero : ∀ j, columns ≤ j → (padded width d).getD j 0 = 0 := fun j hj =>
    getD_padded width (hlen ▸ hj)
  have hs := h.slackAfter_le
  have ha := h.artificialAfter_le
  have hcol := h.columns_le
  have hstart := h.start_le
  rw [gap_eq_dot (length_laid h).le]
  rcases laid_cases width slack artificial d with ⟨hc, heq⟩ | ⟨hc, heq⟩ | ⟨hc, heq⟩ <;>
    simp only [hc, slackAfter, artificialAfter, reduceCtorEq, if_false, if_true] at hs ha
  · rw [heq, dot_set (by omega), hdot, hzero slack hcol, hc, Comparison.slackFactor,
      Comparison.artificialFactor]
    ring
  · rw [heq, dot_set (by rw [List.length_set]; omega), getD_set_of_ne (by omega),
      dot_set (by omega), hdot, hzero slack hcol, hzero artificial (by omega), hc,
      Comparison.slackFactor, Comparison.artificialFactor]
    ring
  · rw [heq, dot_set (by omega), hdot, hzero artificial (by omega), hc, Comparison.slackFactor,
      Comparison.artificialFactor]
    ring

theorem coefficient_laid_basic (h : Room columns start width (d :: rest) slack artificial) :
    (laid width slack artificial d).equation.coefficient
      (laid width slack artificial d).basic = 1 := by
  have hpad := h.length_padded
  have hs := h.slackAfter_le
  have ha := h.artificialAfter_le
  have hstart := h.start_le
  rcases laid_cases width slack artificial d with ⟨hc, heq⟩ | ⟨hc, heq⟩ | ⟨hc, heq⟩ <;>
    simp only [hc, slackAfter, artificialAfter, reduceCtorEq, if_false, if_true] at hs ha <;>
    rw [heq, Equation.coefficient_eq]
  · exact getD_set_self (by omega) 1
  · exact getD_set_self (by rw [List.length_set]; omega) 1
  · exact getD_set_self (by omega) 1

/-- A row does not mention the slack and artificial variables of other rows. -/
theorem coefficient_laid (h : Room columns start width (d :: rest) slack artificial) {j : ℕ}
    (hj : columns ≤ j) (hs : ¬ (slack ≤ j ∧ j < slackAfter d.comparison slack))
    (ha : ¬ (artificial ≤ j ∧ j < artificialAfter d.comparison artificial)) :
    (laid width slack artificial d).equation.coefficient j = 0 := by
  have hzero : (padded width d).getD j 0 = 0 :=
    getD_padded width (h.length_eq d List.mem_cons_self ▸ hj)
  rcases laid_cases width slack artificial d with ⟨hc, heq⟩ | ⟨hc, heq⟩ | ⟨hc, heq⟩ <;>
    simp only [hc, slackAfter, artificialAfter, reduceCtorEq, if_false, if_true] at hs ha <;>
    rw [heq, Equation.coefficient_eq]
  · rw [getD_set_of_ne (by omega), hzero]
  · rw [getD_set_of_ne (by omega), getD_set_of_ne (by omega), hzero]
  · rw [getD_set_of_ne (by omega), hzero]

end row

/-! ## All rows -/

section shape

variable {α : Type} [Scalar α] {columns start width slack artificial : ℕ}
  {dense : List (DenseRow α)}

/-- Each laid out row comes from a constraint, with room for what it takes. -/
theorem exists_laid (h : Room columns start width dense slack artificial) {row : TableauRow α}
    (hrow : row ∈ layOut width dense slack artificial) : ∃ d rest s a, d ∈ dense ∧
      Room columns start width (d :: rest) s a ∧ slack ≤ s ∧ artificial ≤ a ∧
        row = laid width s a d := by
  induction dense generalizing slack artificial with
  | nil => exact absurd hrow List.not_mem_nil
  | cons d rest ih =>
    rw [layOut_cons] at hrow
    rcases List.mem_cons.1 hrow with rfl | hrow
    · exact ⟨d, rest, slack, artificial, List.mem_cons_self, h, le_rfl, le_rfl, rfl⟩
    · obtain ⟨e, rest', s, a, he, hroom, hs, ha, heq⟩ := ih h.tail hrow
      exact ⟨e, rest', s, a, List.mem_cons_of_mem _ he, hroom, (le_slackAfter ..).trans hs,
        (le_artificialAfter ..).trans ha, heq⟩

/-- Basic variables are slacks or artificial ones. -/
theorem basic_layOut (h : Room columns start width dense slack artificial) :
    ∀ row ∈ layOut width dense slack artificial, (slack ≤ row.basic ∧ row.basic < start) ∨
      (artificial ≤ row.basic ∧ row.basic < width) := by
  intro row hrow
  obtain ⟨d, rest, s, a, -, hroom, hs, ha, rfl⟩ := exists_laid h hrow
  have hbasic := basic_laid width s a d
  have hslack := hroom.slackAfter_le
  have hartificial := hroom.artificialAfter_le
  omega

end shape

section rows

variable {columns start width slack artificial : ℕ} {dense : List (DenseRow ℚ)}

/-- No row has a slack or an artificial variable that was taken before it. -/
theorem coefficient_layOut (h : Room columns start width dense slack artificial) {j : ℕ}
    (hj : (columns ≤ j ∧ j < slack) ∨ (start ≤ j ∧ j < artificial)) :
    ∀ row ∈ layOut width dense slack artificial, row.equation.coefficient j = 0 := by
  intro row hrow
  obtain ⟨d, rest, s, a, -, hroom, hs, ha, rfl⟩ := exists_laid h hrow
  have hslack := hroom.slackAfter_le
  have hle := le_slackAfter d.comparison s
  have hcol := h.columns_le
  have hstart := h.start_le
  apply coefficient_laid hroom <;> omega

/-- No row mentions the basic variable of another one. -/
theorem apart_layOut (h : Room columns start width dense slack artificial) :
    (layOut width dense slack artificial).Pairwise Apart := by
  induction dense generalizing slack artificial with
  | nil => exact List.Pairwise.nil
  | cons d rest ih =>
    have hs := h.slackAfter_le
    have hcol := h.columns_le
    have hstart := h.start_le
    have hle := le_slackAfter d.comparison slack
    have hle' := le_artificialAfter d.comparison artificial
    have hhead := basic_laid width slack artificial d
    rw [layOut_cons]
    refine List.pairwise_cons.2 ⟨fun row hrow => ⟨?_, ?_⟩, ih h.tail⟩
    · have hbasic := basic_layOut h.tail row hrow
      apply coefficient_laid h <;> omega
    · apply coefficient_layOut h.tail _ row hrow
      omega

/-- Where the equations hold with artificial variables that are zero, the rows hold. -/
theorem holds_of_layOut (h : Room columns start width dense slack artificial) {x : ℕ → ℚ}
    (hx : ∀ j, 0 ≤ x j) (hz : ∀ j, start ≤ j → j < width → x j = 0)
    (hsol : ∀ row ∈ layOut width dense slack artificial, row.equation.gap width x = 0) :
    ∀ d ∈ dense, d.Holds x := by
  induction dense generalizing slack artificial with
  | nil => exact fun d hd => absurd hd List.not_mem_nil
  | cons d rest ih =>
    rw [layOut_cons, List.forall_mem_cons, gap_laid h, h.artificialFactor_mul hz, add_zero,
      sub_eq_zero] at hsol
    exact List.forall_mem_cons.2 ⟨Comparison.rel_of_slack hsol.1 (hx slack), ih h.tail hsol.2⟩

/-- The slack of a row can be chosen without touching the variables before it. -/
theorem exists_set_slack {d : DenseRow ℚ} {rest : List (DenseRow ℚ)}
    (h : Room columns start width (d :: rest) slack artificial) {x : ℕ → ℚ} (hx : ∀ j, 0 ≤ x j)
    {s : ℚ} (hs : 0 ≤ s) : ∃ y : ℕ → ℚ, (∀ j, j < slack ∨ start ≤ j → y j = x j) ∧
      (∀ j, 0 ≤ y j) ∧ (slack < slackAfter d.comparison slack → y slack = s) := by
  by_cases hlt : slack < slackAfter d.comparison slack
  · refine ⟨Function.update x slack s, fun j hj => ?_, fun j => ?_,
      fun _ => Function.update_self ..⟩
    · have hle := h.slackAfter_le
      exact Function.update_of_ne (by omega) ..
    · rcases eq_or_ne j slack with rfl | hne
      · rwa [Function.update_self]
      · rw [Function.update_of_ne hne]
        exact hx j
  · exact ⟨x, fun _ _ => rfl, hx, fun h => absurd h hlt⟩

/-- Where the rows hold, slacks can be chosen so that the equations do. -/
theorem exists_slacks (h : Room columns start width dense slack artificial) {x : ℕ → ℚ}
    (hx : ∀ j, 0 ≤ x j) (hz : ∀ j, start ≤ j → j < width → x j = 0)
    (hdense : ∀ d ∈ dense, d.Holds x) :
    ∃ y : ℕ → ℚ, (∀ j, j < slack ∨ start ≤ j → y j = x j) ∧ (∀ j, 0 ≤ y j) ∧
      ∀ row ∈ layOut width dense slack artificial, row.equation.gap width y = 0 := by
  induction dense generalizing slack artificial x with
  | nil => exact ⟨x, fun _ _ => rfl, hx, fun row hrow => absurd hrow List.not_mem_nil⟩
  | cons d rest ih =>
    obtain ⟨hd, hrest⟩ := List.forall_mem_cons.1 hdense
    obtain ⟨s, hs, hslack⟩ := Comparison.exists_slack hd
    obtain ⟨x', hsame, hx', hset⟩ := exists_set_slack h hx hs
    have hdot : ∀ e ∈ d :: rest, ∀ z : ℕ → ℚ, (∀ j, j < slack ∨ start ≤ j → z j = x j) →
        dot e.coefficients z = dot e.coefficients x := fun e he z hzx =>
      dot_congr fun j hj => hzx j (Or.inl ((h.length_eq e he ▸ hj).trans_le h.columns_le))
    have hz' : ∀ j, start ≤ j → j < width → x' j = 0 := fun j hj hw =>
      (hsame j (Or.inr hj)).trans (hz j hj hw)
    obtain ⟨y, hy, hypos, hygap⟩ := ih h.tail hx' hz' fun e he => by
      rw [DenseRow.Holds, hdot e (List.mem_cons_of_mem _ he) x' hsame]
      exact hrest e he
    have hyx : ∀ j, j < slack ∨ start ≤ j → y j = x j := fun j hj =>
      (hy j (hj.imp_left fun hlt => hlt.trans_le (le_slackAfter ..))).trans (hsame j hj)
    refine ⟨y, hyx, hypos, ?_⟩
    have hfactor : d.comparison.slackFactor * y slack = d.comparison.slackFactor * s := by
      by_cases heq : d.comparison = .equal
      · rw [heq, Comparison.slackFactor, zero_mul, zero_mul]
      · have hlt : slack < slackAfter d.comparison slack := by
          rw [slackAfter, if_neg heq]
          exact Nat.lt_succ_self slack
        rw [hy slack (Or.inl hlt), hset hlt]
    rw [layOut_cons]
    refine List.forall_mem_cons.2 ⟨?_, hygap⟩
    rw [gap_laid h, hdot d List.mem_cons_self y hyx, hfactor, hslack,
      h.artificialFactor_mul fun j hj hw => (hyx j (Or.inr hj)).trans (hz j hj hw), add_zero,
      sub_self]

end rows

/-! ## The tableau of a problem -/

section start

variable {α : Type} [Scalar α]

/-- The dense rows that a tableau starts from. -/
def oriented (p : Problem α) (box : Box α) : List (DenseRow α) :=
  (p.dense box).map DenseRow.orient

/-- The starting tableau has a column for each slack and each artificial variable. -/
theorem room_ofProblem (p : Problem α) (box : Box α) :
    Room p.columns.length (ofProblem p box.lower box.upper).artificialStart
      (ofProblem p box.lower box.upper).width (oriented p box) p.columns.length
      (ofProblem p box.lower box.upper).artificialStart where
  length_eq := List.forall_mem_map.2 fun d hd =>
    d.length_orient.trans (Problem.length_of_mem_dense hd)
  columns_le := le_rfl
  slack_le := le_rfl
  start_le := le_rfl
  artificial_le := le_rfl

theorem start_le_ofProblem (p : Problem α) (box : Box α) :
    (ofProblem p box.lower box.upper).artificialStart ≤ (ofProblem p box.lower box.upper).width :=
  Nat.le_add_right ..

theorem shaped_ofProblem (p : Problem α) (box : Box α) :
    (ofProblem p box.lower box.upper).Shaped := by
  have hroom := room_ofProblem p box
  have hstart := start_le_ofProblem p box
  refine ⟨fun row hrow => ?_, fun row hrow => ?_, List.length_replicate ..⟩
  · obtain ⟨d, rest, s, a, -, hd, -, -, rfl⟩ := exists_laid hroom hrow
    exact length_laid hd
  · have hbasic := basic_layOut hroom row hrow
    omega

end start

/-- The starting basis is feasible: right-hand sides are not negative after orienting. -/
theorem feasible_ofProblem (p : Problem ℚ) (box : Box ℚ) :
    (ofProblem p box.lower box.upper).Feasible := by
  have hroom := room_ofProblem p box
  have hobjective : (ofProblem p box.lower box.upper).objective =
      ⟨List.replicate (ofProblem p box.lower box.upper).width 0, 0⟩ := rfl
  refine ⟨⟨shaped_ofProblem p box, fun row hrow => ?_, apart_layOut hroom, fun row hrow => ?_⟩,
    fun row hrow => ?_⟩
  · obtain ⟨d, rest, s, a, -, hd, -, -, rfl⟩ := exists_laid hroom hrow
    exact coefficient_laid_basic hd
  · rw [hobjective]
    exact getD_replicate_zero ..
  · obtain ⟨d, rest, s, a, hmem, -, -, -, rfl⟩ := exists_laid hroom hrow
    obtain ⟨e, -, rfl⟩ := List.mem_map.1 hmem
    rw [constant_laid]
    exact e.rhs_orient_nonneg

end Tableau

namespace Problem

variable {p : Problem ℚ} {box : Box ℚ}

/-- What the starting tableau admits is feasible in the box. -/
theorem feasibleIn_of_admits (hp : p.Known) (hbox : box.Fits p) {x : ℕ → ℚ}
    (h : (Tableau.ofProblem p box.lower box.upper).Admits x) :
    p.FeasibleIn box (raised box.lower x) := by
  have hdense :=
    Tableau.holds_of_layOut (Tableau.room_ofProblem p box) h.nonneg h.artificial h.solves
  refine (feasibleIn_raised_iff hp hbox x).2 ⟨fun i _ => h.nonneg i, fun d hd => ?_⟩
  exact (d.holds_orient_iff x).1 (hdense _ (List.mem_map_of_mem hd))

/-- What is feasible in the box is admitted by the starting tableau. -/
theorem exists_admits (hp : p.Known) (hbox : box.Fits p) {values : List ℚ}
    (h : p.FeasibleIn box values) : ∃ x, (Tableau.ofProblem p box.lower box.upper).Admits x ∧
      raised box.lower x = values := by
  have hlen : values.length = box.lower.length := h.length_eq.trans hbox.lower_length.symm
  obtain ⟨x, hx, hzero⟩ : ∃ x : ℕ → ℚ, raised box.lower x = values ∧
      ∀ j, p.columns.length ≤ j → x j = 0 := by
    refine ⟨fun i => values.getD i 0 - box.lower.getD i 0, raised_sub hlen, fun j hj => ?_⟩
    beta_reduce
    rw [List.getD_eq_default _ _ (h.length_eq ▸ hj),
      List.getD_eq_default _ _ (hbox.lower_length ▸ hj), sub_zero]
  rw [← hx] at h
  obtain ⟨hpos, hdense⟩ := (feasibleIn_raised_iff hp hbox x).1 h
  have hroom := Tableau.room_ofProblem p box
  have hcolumns : p.columns.length ≤ (Tableau.ofProblem p box.lower box.upper).artificialStart :=
    Nat.le_add_right ..
  have hx0 : ∀ j, 0 ≤ x j := fun j => by
    rcases lt_or_ge j p.columns.length with hlt | hge
    · exact hpos j hlt
    · exact (hzero j hge).ge
  have hart : ∀ j, (Tableau.ofProblem p box.lower box.upper).artificialStart ≤ j →
      j < (Tableau.ofProblem p box.lower box.upper).width → x j = 0 := fun j hj _ =>
    hzero j (hcolumns.trans hj)
  obtain ⟨y, hyx, hy, hsol⟩ := Tableau.exists_slacks hroom hx0 hart
    (List.forall_mem_map.2 fun d hd => (d.holds_orient_iff x).2 (hdense d hd))
  refine ⟨y, ⟨hsol, hy, fun j hj hw => (hyx j (Or.inr hj)).trans (hart j hj hw)⟩, ?_⟩
  rw [← hx]
  refine raised_congr fun i hi => hyx i (Or.inl ?_)
  exact hbox.lower_length ▸ hi

end Problem

end WorstCase
