import WorstCase.Linear.Problem
import WorstCase.Proofs.Number.Whole

/-!
# Sums of whole doubles

How far roundings in a row can lead away (`Off`). One rounding after another moves a number by a
part in `2 ^ 53` of what it has become, and not at all as long as the magnitudes of the parts it is
put together from add up to `2 ^ 53` at most. The sum of a list of whole doubles rounds once for
each of them (`exists_whole_sum`).
-/

namespace WorstCase.Double

/-- How far off, for each unit of their sizes, numbers can be after `k` roundings in a row. -/
def drift (k : ℕ) : ℚ :=
  (1 + 1 / 2 ^ 53) ^ k - 1

theorem drift_nonneg (k : ℕ) : 0 ≤ drift k :=
  sub_nonneg.2 (one_le_pow₀ (by norm_num))

theorem drift_mono {k l : ℕ} (h : k ≤ l) : drift k ≤ drift l :=
  sub_le_sub_right (pow_le_pow_right₀ (by norm_num) h) 1

/-- Each rounding adds a part in `2 ^ 53` of what is there. -/
theorem drift_succ (k : ℕ) : drift (k + 1) = drift k + 1 / 2 ^ 53 * (1 + drift k) := by
  unfold drift
  ring

/-- After at most `k` roundings in a row, `b` stands for `a`, which is put together from parts whose
magnitudes add up to `size`. -/
structure Off (k : ℕ) (size a b : ℤ) : Prop where
  abs_le : |a| ≤ size
  close : |(b : ℚ) - a| ≤ drift k * size
  exact : size ≤ 2 ^ 53 → b = a

namespace Off

variable {k l : ℕ} {size size' a a' b b' : ℤ}

theorem refl (k : ℕ) (a : ℤ) : Off k |a| a a := by
  refine ⟨le_rfl, ?_, fun _ => rfl⟩
  have hsize : (0 : ℚ) ≤ (|a| : ℤ) := by exact_mod_cast abs_nonneg a
  rw [sub_self, abs_zero]
  exact mul_nonneg (drift_nonneg k) hsize

theorem size_nonneg (h : Off k size a b) : (0 : ℚ) ≤ size := by
  exact_mod_cast (abs_nonneg a).trans h.abs_le

theorem mono (h : Off k size a b) (hk : k ≤ l) : Off l size a b :=
  ⟨h.abs_le, h.close.trans (mul_le_mul_of_nonneg_right (drift_mono hk) h.size_nonneg), h.exact⟩

/-- One more rounding. -/
theorem round (h : Off k size a b) (hb : Rounded b b') : Off (k + 1) size a b' := by
  refine ⟨h.abs_le, ?_, fun hsize => ?_⟩
  · have hsize : |(a : ℚ)| ≤ size := by exact_mod_cast h.abs_le
    have hclose := h.close
    have hround := hb.abs_sub_le
    have hbound : |(b : ℚ)| ≤ (1 + drift k) * size := by
      calc |(b : ℚ)| = |((b : ℚ) - a) + a| := by rw [sub_add_cancel]
        _ ≤ |(b : ℚ) - a| + |(a : ℚ)| := abs_add_le _ _
        _ ≤ (1 + drift k) * size := by linarith
    calc |(b' : ℚ) - a| ≤ |(b' : ℚ) - b| + |(b : ℚ) - a| := abs_sub_le _ _ _
      _ ≤ 1 / 2 ^ 53 * ((1 + drift k) * size) + drift k * size := by
        refine add_le_add (hround.trans ?_) hclose
        exact mul_le_mul_of_nonneg_left hbound (by norm_num)
      _ = drift (k + 1) * size := by rw [drift_succ]; ring
  · have hsame := h.exact hsize
    rw [← hsame]
    exact hb.eq_of_le (hsame ▸ h.abs_le.trans hsize)

theorem add (h : Off k size a b) (h' : Off k size' a' b') :
    Off k (size + size') (a + a') (b + b') := by
  have hpos := h.size_nonneg
  have hpos' := h'.size_nonneg
  refine ⟨(abs_add_le _ _).trans (add_le_add h.abs_le h'.abs_le), ?_, fun hsize => ?_⟩
  · have hsplit : ((b + b' : ℤ) : ℚ) - (a + a' : ℤ) = (b - a) + (b' - a') := by
      push_cast
      ring
    rw [hsplit, Int.cast_add, mul_add]
    exact (abs_add_le _ _).trans (add_le_add h.close h'.close)
  · have hle : 0 ≤ size := by exact_mod_cast hpos
    have hle' : 0 ≤ size' := by exact_mod_cast hpos'
    rw [h.exact (by omega), h'.exact (by omega)]

theorem mul (h : Off k size a b) (v : ℤ) : Off k (size * |v|) (a * v) (b * v) := by
  refine ⟨?_, ?_, fun hsize => ?_⟩
  · rw [abs_mul]
    exact mul_le_mul_of_nonneg_right h.abs_le (abs_nonneg v)
  · have hsplit : ((b * v : ℤ) : ℚ) - (a * v : ℤ) = (b - a) * v := by
      push_cast
      ring
    rw [hsplit, abs_mul, Int.cast_mul, Int.cast_abs, ← mul_assoc]
    exact mul_le_mul_of_nonneg_right h.close (abs_nonneg _)
  · by_cases hv : v = 0
    · rw [hv, mul_zero, mul_zero]
    · have hnonneg : 0 ≤ size := by exact_mod_cast h.size_nonneg
      have hone : 1 ≤ |v| := Int.one_le_abs hv
      rw [h.exact ((le_mul_of_one_le_right hnonneg hone).trans hsize)]

end Off

/-- A whole number of times a time: both the time and the product are rounded. -/
theorem exists_whole_ofNat_mul {n z : ℕ} {v : Float} (hn : (Float.ofNat n).isFinite)
    (hv : Whole v z) (hfin : (Float.ofNat n * v).isFinite) :
    ∃ c, Whole (Float.ofNat n * v) c ∧ Off 2 (n * z : ℕ) (n * z : ℕ) c := by
  obtain ⟨b, hb, hbn⟩ := exists_whole_ofNat hn
  obtain ⟨c, hc, hcv⟩ := hbn.mul hv hfin
  refine ⟨c, hcv, ?_⟩
  have hoff := (((Off.refl 0 (n : ℤ)).round hb).mul z).round hc
  rwa [Nat.abs_cast, Nat.abs_cast, ← Nat.cast_mul] at hoff

theorem abs_toNat_sub_le (c : ℤ) (n : ℕ) : |((c.toNat : ℕ) : ℚ) - n| ≤ |(c : ℚ) - n| := by
  rcases le_total 0 c with hc | hc
  · rw [cast_toNat hc]
  · have hneg : (c : ℚ) ≤ 0 := by exact_mod_cast hc
    have hn : (0 : ℚ) ≤ n := Nat.cast_nonneg n
    rw [Int.toNat_of_nonpos hc, Nat.cast_zero, abs_sub_comm, abs_sub_comm (c : ℚ)]
    exact abs_le_abs_of_nonneg (by linarith) (by linarith)

/-! ## Sums of lists -/

theorem isFinite_of_foldl {xs : List Float} {x : Float} (h : (xs.foldl (· + ·) x).isFinite) :
    x.isFinite := by
  induction xs generalizing x with
  | nil => exact h
  | cons y ys ih => exact (isFinite_of_add (ih h)).1

variable {ι : Type} {k : ℕ} {x : ι → Float} {size exact : ι → ℤ}

/-- A sum of whole doubles that stays finite is whole, and is off by one rounding more for each
term. -/
theorem exists_whole_foldl {xs : List ι} (hx : ∀ i ∈ xs, (x i).isFinite →
      ∃ c, Whole (x i) c ∧ Off k (size i) (exact i) c) {l : ℕ} (hl : k ≤ l) {acc : Float}
    {size₀ a b : ℤ} (hacc : Whole acc b) (hoff : Off l size₀ a b)
    (hfin : ((xs.map x).foldl (· + ·) acc).isFinite) :
    ∃ c, Whole ((xs.map x).foldl (· + ·) acc) c ∧
      Off (l + xs.length) (size₀ + (xs.map size).sum) (a + (xs.map exact).sum) c := by
  induction xs generalizing l acc size₀ a b with
  | nil =>
    refine ⟨b, hacc, ?_⟩
    simpa using hoff
  | cons i is ih =>
    rw [List.forall_mem_cons] at hx
    rw [List.map_cons, List.foldl_cons] at hfin ⊢
    have hnext := isFinite_of_foldl hfin
    obtain ⟨c, hc, hic⟩ := hx.1 (isFinite_of_add hnext).2
    obtain ⟨d, hd, hsum⟩ := hacc.add hc hnext
    obtain ⟨z, hz, hoffz⟩ := ih hx.2 (hl.trans l.le_succ) hsum
      ((hoff.add (hic.mono hl)).round hd) hfin
    refine ⟨z, hz, ?_⟩
    rw [List.length_cons, List.map_cons, List.map_cons, List.sum_cons, List.sum_cons,
      ← Int.add_assoc, ← Int.add_assoc, Nat.add_comm is.length, ← Nat.add_assoc]
    exact hoffz

/-- A sum of whole doubles rounds once for each of them. -/
theorem exists_whole_sum {xs : List ι} (hx : ∀ i ∈ xs, (x i).isFinite →
      ∃ c, Whole (x i) c ∧ Off k (size i) (exact i) c) (hfin : (Scalar.sum (xs.map x)).isFinite) :
    ∃ c, Whole (Scalar.sum (xs.map x)) c ∧
      Off (k + xs.length) (xs.map size).sum (xs.map exact).sum c := by
  have hzero : Whole (-0 : Float) 0 := whole_of_zero (s := .negative) rfl
  obtain ⟨c, hc, hoff⟩ := exists_whole_foldl hx le_rfl hzero (Off.refl k 0) hfin
  rw [abs_zero, Int.zero_add, Int.zero_add] at hoff
  exact ⟨c, hc, hoff⟩

end WorstCase.Double
