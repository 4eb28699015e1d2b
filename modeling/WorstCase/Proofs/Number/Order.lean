import WorstCase.Proofs.Number.WholeText

/-!
# Rounding keeps the order

The double of a natural number has the 53 digits nearest to it. Of two numbers with as many digits
the larger one has no smaller nearest number, and between others there is a power of two, which is a
double itself. So doubles of numbers of 64 bits are in the order of the numbers
(`value_ofNat_mono`). A number that is too large for a double is an infinity, which is not below
zero either (`not_ofNat_lt_zero`).
-/

namespace WorstCase.Double

/-- The double of a number of 64 bits lies between the powers of two around the number. -/
theorem exists_value_ofNat {n : ℕ} (hn : n ≠ 0) (h : n < 2 ^ 64) : ∃ r : ℕ,
    Nearest r (n / 2 ^ ((n.log2 : ℤ) - 52)) ∧
      value (Float.ofNat n) = r * 2 ^ ((n.log2 : ℤ) - 52) ∧ 2 ^ 52 ≤ r ∧ r ≤ 2 ^ 53 := by
  have hlog : n.log2 < 64 := (Nat.log2_lt hn).2 h
  obtain ⟨r, m, e, hp, hu, -, hnear, hvalue⟩ := exists_unpack_ofNat_nearest hn (by omega)
  have hpos : (0 : ℚ) < 2 ^ ((n.log2 : ℤ) - 52) := zpow_pos two_pos _
  have hlow : (2 : ℚ) ^ n.log2 ≤ n := by exact_mod_cast Nat.log2_self_le hn
  have hhigh : (n : ℚ) ≤ 2 ^ (n.log2 + 1) := by exact_mod_cast Nat.lt_log2_self.le
  have hscale : (2 : ℚ) ^ n.log2 = 2 ^ 52 * 2 ^ ((n.log2 : ℤ) - 52) := by
    rw [zpow_sub₀ two_ne_zero, zpow_natCast]
    norm_num
    field_simp
  refine ⟨r, hnear, ?_, ?_, ?_⟩
  · rw [value_of_finite hu, ← hvalue]
    rfl
  · refine Nearest.mono (.natCast _) hnear ?_
    rw [le_div_iff₀ hpos]
    norm_num at hscale ⊢
    linarith
  · refine hnear.mono (.natCast _) ?_
    rw [div_le_iff₀ hpos]
    rw [pow_succ] at hhigh
    norm_num at hscale ⊢
    linarith

theorem value_ofNat_nonneg {n : ℕ} (h : n < 2 ^ 64) : 0 ≤ value (Float.ofNat n) := by
  rcases eq_or_ne n 0 with rfl | hn
  · exact (value_ofNat (Nat.zero_le _)).ge.trans' (by norm_num)
  · obtain ⟨r, -, hvalue, -⟩ := exists_value_ofNat hn h
    rw [hvalue]
    positivity

/-- The double of a number of 64 bits is off by at most a part in `2 ^ 53`. -/
theorem abs_value_ofNat_sub_le {n : ℕ} (h : n < 2 ^ 64) :
    |value (Float.ofNat n) - n| * 2 ^ 53 ≤ n := by
  obtain ⟨b, hb, hwhole⟩ := exists_whole_ofNat (unsigned_ofNat h).finite
  rw [hwhole.value_eq]
  rcases hb with rfl | hlt
  · simp
  · rw [Nat.abs_cast] at hlt
    exact_mod_cast hlt.le

/-- Rounding to doubles keeps the order of numbers of 64 bits. -/
theorem value_ofNat_mono {a b : ℕ} (hab : a ≤ b) (hb : b < 2 ^ 64) :
    value (Float.ofNat a) ≤ value (Float.ofNat b) := by
  rcases eq_or_ne a 0 with rfl | ha
  · rw [value_ofNat (Nat.zero_le _), Nat.cast_zero]
    exact value_ofNat_nonneg hb
  · obtain ⟨r, hr, hra, -, hrhigh⟩ := exists_value_ofNat ha (hab.trans_lt hb)
    obtain ⟨s, hs, hsb, hslow, -⟩ := exists_value_ofNat (by omega : b ≠ 0) hb
    have hcast : (a : ℚ) ≤ b := by exact_mod_cast hab
    rw [hra, hsb]
    have hle : a.log2 ≤ b.log2 :=
      (Nat.le_log2 (by omega)).2 ((Nat.log2_self_le ha).trans hab)
    rcases hle.lt_or_eq with hlt | hlog
    · -- a power of two lies between
      calc (r : ℚ) * 2 ^ ((a.log2 : ℤ) - 52) ≤ 2 ^ 53 * 2 ^ ((a.log2 : ℤ) - 52) := by
            gcongr
            exact_mod_cast hrhigh
        _ = 2 ^ 52 * 2 ^ ((a.log2 : ℤ) - 52 + 1) := by
            rw [zpow_add_one₀ two_ne_zero]
            ring
        _ ≤ 2 ^ 52 * 2 ^ ((b.log2 : ℤ) - 52) := by
            gcongr
            · exact one_le_two
            · omega
        _ ≤ s * 2 ^ ((b.log2 : ℤ) - 52) := by
            gcongr
            exact_mod_cast hslow
    · rw [← hlog] at hs ⊢
      have hle : r ≤ s := hr.mono hs (by gcongr)
      gcongr

theorem value_neg_ofNat_word {n : ℕ} (h : n < 2 ^ 64) :
    value (-Float.ofNat n) = -value (Float.ofNat n) := by
  obtain ⟨b, -, hwhole⟩ := exists_whole_ofNat (unsigned_ofNat h).finite
  rw [hwhole.neg.value_eq, hwhole.value_eq, Int.cast_neg]

theorem value_neg_ofNat_anti {a b : ℕ} (hab : a ≤ b) (hb : b < 2 ^ 64) :
    value (-Float.ofNat b) ≤ value (-Float.ofNat a) := by
  rw [value_neg_ofNat_word hb, value_neg_ofNat_word (hab.trans_lt hb)]
  exact neg_le_neg (value_ofNat_mono hab hb)

open Float.Model.UnpackedFloat in
/-- No natural number is a double below zero. -/
theorem not_ofNat_lt_zero (n : ℕ) : ¬ Float.ofNat n < Float.ofNat 0 := by
  rcases eq_or_ne n 0 with rfl | hn
  · decide
  rcases Nat.lt_or_ge n (2 ^ 53) with hlt | hle
  · obtain ⟨hp, hx⟩ := unpack_ofNat hn hlt
    rw [lt_iff, hx]
    exact Bool.false_ne_true
  · have hlog : (n * 2 ^ 53).log2 = n.log2 + 53 := log2_shifted hn 53
    obtain ⟨r, m, e, hcan, -, -, -, -, hround⟩ := exists_roundWithAccuracy (m := n * 2 ^ 53)
      (e := -53) (by omega) (by omega) .positive
    have hlong : (Float.ofNat n).toModel = Float.Model.pack (.finite .positive m e hcan.pos) := by
      rw [ofNat_long hle, hround]
    rw [lt_iff, hlong]
    rcases le_or_gt e 971 with hlow | hhigh
    · rw [Regular.unpack_pack ⟨hcan, hlow⟩ .positive]
      exact Bool.false_ne_true
    · rw [unpack_pack_high hcan.pos hhigh .positive]
      exact Bool.false_ne_true

end WorstCase.Double
