import WorstCase.Proofs.Number.Text
import WorstCase.Proofs.Number.Whole

/-!
# Texts of whole doubles

The text of a whole double is digits and zeros. It is found on the grid of the whole numbers, or on
a coarser one, and so stands for a whole number that rounds to the double: the nearest double to it
is the one that was written (`Double.readsBack_of_whole`). The numbers of 64 bits are written so
(`Double.readsBack_ofNat`).
-/

namespace WorstCase

/-! ## Reading digits and zeros -/

theorem Decimal.read?_text (c k : ℕ) : read? (text ⟨c, k⟩) = some (⟨c * 10 ^ k, 0⟩, []) := by
  have hne : digits c ++ List.replicate k '0' ≠ [] :=
    List.append_ne_nil_of_left_ne_nil Nat.toDigits_ne_nil _
  have hds : ∀ d ∈ digits c ++ List.replicate k '0', d.isDigit := by
    intro d hd
    rcases List.mem_append.1 hd with hd | hd
    · exact isDigit_of_mem_digits hd
    · rw [List.eq_of_mem_replicate hd]
      rfl
  have hvalue : digitsValue (digits c ++ List.replicate k '0') = c * 10 ^ k := by
    have hdigits : Nat.ofDigitChars 10 (digits c) 0 = c :=
      Nat.ofDigitChars_toDigits (by decide) (by decide)
    have hfold : ∀ ds, digitsValue ds = Nat.ofDigitChars 10 ds 0 := fun _ => rfl
    rw [hfold, Nat.ofDigitChars_append, hdigits, Nat.ofDigitChars_replicate_zero, Nat.mul_comm]
  have hend : Text.Break [] := fun d hd => by cases hd
  have hread := read?_digits hne hds hend
  rwa [List.append_nil, hvalue] at hread

/-! ## Grids -/

namespace Shortest.Interval

/-- The number is in the interval. -/
def Contains (i : Interval) (x : ℚ) : Prop :=
  if i.closed then i.low * 2 ^ i.scale ≤ x ∧ x ≤ i.high * 2 ^ i.scale
  else i.low * 2 ^ i.scale < x ∧ x < i.high * 2 ^ i.scale

/-- A point of a grid of whole numbers in a unit that divides the steps of grid and interval. -/
theorem cast_grid (c k : ℕ) (z : ℤ) : (c : ℚ) * 10 ^ k * 2 ^ (-z).toNat =
    (c * (Nat.pow 10 (k : ℤ).toNat * Nat.pow 2 (-z).toNat) : ℕ) := by
  push_cast
  simp [mul_assoc]

theorem cast_end (n k : ℕ) (z : ℤ) : (n : ℚ) * 2 ^ z * 2 ^ (-z).toNat =
    (n * (Nat.pow 10 (-(k : ℤ)).toNat * Nat.pow 2 z.toNat) : ℕ) := by
  have hscale : (2 : ℚ) ^ z * 2 ^ (-z).toNat = 2 ^ z.toNat := by
    rw [← zpow_natCast, ← zpow_natCast, ← zpow_add₀ two_ne_zero]
    congr 1
    omega
  have hten : (-(k : ℤ)).toNat = 0 := by omega
  rw [mul_assoc, hscale, hten]
  push_cast
  simp

/-- Whether a point of a grid is in the interval is told in whole numbers. -/
theorem contains_iff (i : Interval) {k p q : ℕ}
    (hp : p = Nat.pow 10 (k : ℤ).toNat * Nat.pow 2 (-i.scale).toNat)
    (hq : q = Nat.pow 10 (-(k : ℤ)).toNat * Nat.pow 2 i.scale.toNat) (c : ℕ) :
    i.Contains (c * 10 ^ k) ↔
      (if i.closed then i.low * q ≤ c * p && c * p ≤ i.high * q
        else i.low * q < c * p && c * p < i.high * q : Bool) := by
  have hpos : (0 : ℚ) < 2 ^ (-i.scale).toNat := by positivity
  have hgrid := cast_grid c k i.scale
  have hend := fun n => cast_end n k i.scale
  rw [← hp] at hgrid
  rw [← hq] at hend
  unfold Contains
  split <;>
    simp only [Bool.and_eq_true, decide_eq_true_eq] <;>
    refine and_congr ?_ ?_
  · rw [← mul_le_mul_iff_of_pos_right hpos, hgrid, hend, Nat.cast_le]
  · rw [← mul_le_mul_iff_of_pos_right hpos, hgrid, hend, Nat.cast_le]
  · rw [← mul_lt_mul_iff_of_pos_right hpos, hgrid, hend, Nat.cast_lt]
  · rw [← mul_lt_mul_iff_of_pos_right hpos, hgrid, hend, Nat.cast_lt]

theorem contains_of_onGrid? {i : Interval} {c k : ℕ} (h : i.onGrid? k = some c) :
    i.Contains (c * 10 ^ k) := by
  rw [contains_iff i rfl rfl]
  unfold onGrid? at h
  dsimp only at h
  split at h
  · next hbelow habove =>
    split at h <;> obtain rfl := Option.some.inj h
    · exact hbelow
    · exact habove
  · next hbelow _ =>
    obtain rfl := Option.some.inj h
    exact hbelow
  · next _ habove =>
    obtain rfl := Option.some.inj h
    exact habove
  · cases h

/-- The grid of the whole numbers has a point in the interval of a whole number. -/
theorem exists_onGrid?_zero {i : Interval} {n : ℕ} (hlow : i.low < i.value)
    (hhigh : i.value < i.high) (hn : (i.value : ℚ) * 2 ^ i.scale = n) :
    ∃ c, i.onGrid? 0 = some c := by
  have hpos : (0 : ℚ) < 2 ^ i.scale := zpow_pos two_pos _
  have hlow' : (i.low : ℚ) * 2 ^ i.scale < n := by
    rw [← hn]
    exact mul_lt_mul_of_pos_right (by exact_mod_cast hlow) hpos
  have hhigh' : (n : ℚ) < i.high * 2 ^ i.scale := by
    rw [← hn]
    exact mul_lt_mul_of_pos_right (by exact_mod_cast hhigh) hpos
  have hcontains : i.Contains (n * 10 ^ 0) := by
    rw [pow_zero, mul_one, Contains]
    split
    · exact ⟨hlow'.le, hhigh'.le⟩
    · exact ⟨hlow', hhigh'⟩
  rw [contains_iff i rfl rfl] at hcontains
  have hbelow : i.value * (Nat.pow 10 (-((0 : ℕ) : ℤ)).toNat * Nat.pow 2 i.scale.toNat) =
      n * (Nat.pow 10 ((0 : ℕ) : ℤ).toNat * Nat.pow 2 (-i.scale).toNat) := by
    have hcast : (n : ℚ) * 2 ^ (-i.scale).toNat = n * 10 ^ 0 * 2 ^ (-i.scale).toNat := by
      rw [pow_zero, mul_one]
    rw [← Nat.cast_inj (R := ℚ), ← cast_end, ← cast_grid, hn, hcast]
  have hstep : 0 < Nat.pow 10 ((0 : ℕ) : ℤ).toNat * Nat.pow 2 (-i.scale).toNat :=
    Nat.mul_pos (Nat.pow_pos (by decide)) (Nat.pow_pos (by decide))
  rw [← Nat.cast_zero (R := ℤ)]
  unfold onGrid?
  dsimp only
  rw [hbelow, Nat.mul_div_cancel _ hstep, hcontains]
  split
  · split <;> exact ⟨_, rfl⟩
  · exact ⟨_, rfl⟩
  · exact ⟨_, rfl⟩
  · next h _ => cases h

/-- The search ends on a grid of whole numbers if it starts on one and can get to the finest. -/
theorem exists_search {i : Interval} (h : ∃ c, i.onGrid? 0 = some c) {tries k : ℕ}
    (hk : k < tries) : ∃ c j : ℕ, i.search tries k = ⟨c, j⟩ ∧ i.onGrid? j = some c := by
  induction tries generalizing k with
  | zero => omega
  | succ tries ih =>
    rw [search]
    cases hgrid : i.onGrid? k with
    | some c => exact ⟨c, k, rfl, hgrid⟩
    | none =>
      cases k with
      | zero =>
        obtain ⟨c, hc⟩ := h
        exact absurd (hgrid.symm.trans hc) nofun
      | succ k =>
        have hnext : ((k + 1 : ℕ) : ℤ) - 1 = k := by omega
        dsimp only
        rw [hnext]
        exact ih (by omega)

end Shortest.Interval

/-! ## The nearest double -/

namespace Double

open Float.Model Float.Model.UnpackedFloat Shortest

theorem log2_eq {n : ℕ} {z : ℤ} (hlo : (2 : ℚ) ^ z ≤ n) (hhi : (n : ℚ) < 2 ^ (z + 1)) :
    (n.log2 : ℤ) = z := by
  have hpos : (0 : ℚ) < n := (zpow_pos two_pos z).trans_le hlo
  have hn : n ≠ 0 := by
    rintro rfl
    exact absurd hpos (by norm_num)
  have hself : (2 : ℚ) ^ (n.log2 : ℤ) ≤ n := by
    rw [zpow_natCast]
    exact_mod_cast Nat.log2_self_le hn
  have hnext : (n : ℚ) < 2 ^ ((n.log2 : ℤ) + 1) := by
    have hlt : n < 2 ^ (n.log2 + 1) := Nat.lt_log2_self
    exact_mod_cast hlt
  have hle := (zpow_lt_zpow_iff_right₀ one_lt_two).1 (hlo.trans_lt hnext)
  have hge := (zpow_lt_zpow_iff_right₀ one_lt_two).1 (hself.trans_lt hhi)
  omega

theorem mul_zpow_bounds {m : ℕ} (hm : 2 ^ 52 ≤ m ∧ m < 2 ^ 53) (e : ℤ) :
    (2 : ℚ) ^ (52 + e) ≤ m * 2 ^ e ∧ (m : ℚ) * 2 ^ e < 2 ^ (53 + e) := by
  have hpos : (0 : ℚ) < 2 ^ e := zpow_pos two_pos e
  rw [zpow_add₀ two_ne_zero, zpow_add₀ two_ne_zero]
  exact ⟨mul_le_mul_of_nonneg_right (by exact_mod_cast hm.1) hpos.le,
    mul_lt_mul_of_pos_right (by exact_mod_cast hm.2) hpos⟩

/-- Numbers with 53 digits have one form. -/
theorem eq_of_mul_zpow_eq {m m' : ℕ} {e e' : ℤ} (hm : 2 ^ 52 ≤ m ∧ m < 2 ^ 53)
    (hm' : 2 ^ 52 ≤ m' ∧ m' < 2 ^ 53) (h : (m : ℚ) * 2 ^ e = m' * 2 ^ e') : m = m' ∧ e = e' := by
  obtain ⟨hlo, hhi⟩ := mul_zpow_bounds hm e
  obtain ⟨hlo', hhi'⟩ := mul_zpow_bounds hm' e'
  rw [h] at hlo hhi
  have hle := (zpow_lt_zpow_iff_right₀ one_lt_two).1 (hlo.trans_lt hhi')
  have hge := (zpow_lt_zpow_iff_right₀ one_lt_two).1 (hlo'.trans_lt hhi)
  obtain rfl : e = e' := by omega
  refine ⟨?_, rfl⟩
  exact_mod_cast mul_right_cancel₀ (zpow_pos two_pos e).ne' h

/-- The double of a natural number has the 53 digits nearest to it. -/
theorem exists_unpack_ofNat_nearest {n : ℕ} (hn : n ≠ 0) (h : n.log2 < 1000) :
    ∃ r m e hp, (Float.ofNat n).toModel.unpack = .finite .positive m e hp ∧
      (2 ^ 52 ≤ m ∧ m < 2 ^ 53) ∧ Nearest r (n / 2 ^ ((n.log2 : ℤ) - 52)) ∧
      (m : ℚ) * 2 ^ e = r * 2 ^ ((n.log2 : ℤ) - 52) := by
  have hpow : (2 : ℚ) ^ ((n.log2 : ℤ) - 52) ≠ 0 := zpow_ne_zero _ two_ne_zero
  rcases Nat.lt_or_ge n (2 ^ 53) with hlt | hle
  · obtain ⟨hp, hu⟩ := unpack_ofNat hn hlt
    obtain ⟨hlo, hhi, -⟩ := digits_bounds hn hlt
    refine ⟨digits n, digits n, _, hp, hu, ⟨hlo, hhi⟩, ?_, rfl⟩
    rw [(div_eq_iff hpow).2 (digits_mul_zpow hn hlt).symm]
    exact .natCast _
  · have hlong : (n * 2 ^ 53).log2 = n.log2 + 53 := log2_shifted hn 53
    obtain ⟨r, m, e, hcan, hnear, hfull, hexp, hvalue, hround⟩ := exists_roundWithAccuracy
      (m := n * 2 ^ 53) (e := -53) (by omega) (by omega) .positive
    have hexp' : ((n * 2 ^ 53).log2 : ℤ) + -53 - 52 = n.log2 - 52 := by omega
    have hunit : ((n * 2 ^ 53 : ℕ) : ℚ) / 2 ^ ((n * 2 ^ 53).log2 - 52) =
        n / 2 ^ ((n.log2 : ℤ) - 52) := by
      have hnat : (n * 2 ^ 53).log2 - 52 = n.log2 + 1 := by omega
      have hint : (n.log2 : ℤ) - 52 = (n.log2 + 1 : ℕ) - (53 : ℕ) := by omega
      rw [hnat, hint, zpow_sub₀ two_ne_zero, zpow_natCast, zpow_natCast, div_div_eq_mul_div]
      push_cast
      rfl
    rw [hunit] at hnear
    rw [hexp'] at hvalue
    refine ⟨r, m, e, hcan.pos, ?_, ⟨hfull, hcan.lt⟩, hnear, hvalue⟩
    rw [ofNat_long hle, hround]
    exact Regular.unpack_pack ⟨hcan, by omega⟩ .positive

section interval

variable {m n : ℕ} {e : ℤ} (hm : 2 ^ 52 ≤ m) (h : (Interval.ofDouble m e).Contains n)

include hm h

/-- The interval of a double in units of its last place: it ends half a unit away, or a quarter
below a power of two. -/
theorem nearest_of_contains : Nearest m (n / 2 ^ e) ∧
    (m = 2 ^ 52 → -1074 < e → (m : ℚ) - 1 / 4 ≤ n / 2 ^ e) := by
  have hpos : (0 : ℚ) < 2 ^ e := zpow_pos two_pos e
  have hscale : (2 : ℚ) ^ (e - 2) = 2 ^ e / 4 := by
    rw [zpow_sub₀ two_ne_zero]
    norm_num
  obtain ⟨low, hlow⟩ : ∃ low, low = (Interval.ofDouble m e).low := ⟨_, rfl⟩
  have hle : (4 * m - 2 : ℚ) ≤ low := by
    have hnat : 4 * m ≤ low + 2 := by
      rw [hlow, Interval.ofDouble]
      dsimp only
      split <;> omega
    have hcast : (4 * m : ℚ) ≤ low + 2 := by exact_mod_cast hnat
    linarith
  -- the ends in units of the last place, and that they are left out for odd digits
  have hends : (low / 4 ≤ n / (2 : ℚ) ^ e ∧ n / (2 : ℚ) ^ e ≤ m + 1 / 2) ∧
      (m % 2 ≠ 0 → low / 4 < n / (2 : ℚ) ^ e ∧ n / (2 : ℚ) ^ e < m + 1 / 2) := by
    have hhigh : ((4 * m + 2 : ℕ) : ℚ) * (2 ^ e / 4) = (m + 1 / 2) * 2 ^ e := by
      push_cast
      ring
    have hlow' : (low : ℚ) * (2 ^ e / 4) = low / 4 * 2 ^ e := by ring
    rw [le_div_iff₀ hpos, div_le_iff₀ hpos, lt_div_iff₀ hpos, div_lt_iff₀ hpos]
    rw [Interval.Contains, ← hlow, show (Interval.ofDouble m e).high = 4 * m + 2 from rfl,
      show (Interval.ofDouble m e).scale = e - 2 from rfl, hscale, hlow', hhigh] at h
    split at h
    · next hclosed => exact ⟨h, fun hodd => absurd (of_decide_eq_true hclosed) hodd⟩
    · exact ⟨⟨h.1.le, h.2.le⟩, fun _ => h⟩
  obtain ⟨⟨hlo, hhi⟩, hodd⟩ := hends
  refine ⟨⟨abs_le.2 ⟨by linarith, by linarith⟩, fun hhalf => ?_⟩, fun hpow hexp => ?_⟩
  · rw [Nat.even_iff]
    by_contra hne
    obtain ⟨hlo', hhi'⟩ := hodd hne
    have hlt : |(m : ℚ) - n / 2 ^ e| < 1 / 2 := abs_lt.2 ⟨by linarith, by linarith⟩
    exact hlt.ne hhalf
  · have hnat : low + 1 = 4 * m := by
      rw [hlow, Interval.ofDouble]
      dsimp only
      rw [if_pos ⟨hpow, hexp⟩]
      omega
    have hcast : (low + 1 : ℚ) = 4 * m := by exact_mod_cast hnat
    linarith

/-- Every number in the interval of a double rounds to the double. -/
theorem ofNat_eq_of_contains (hexp : -1074 < e ∧ e < 900) {x : Float} {hp : 0 < m}
    (hx : x.toModel.unpack = .finite .positive m e hp) : Float.ofNat n = x := by
  have hlt : m < 2 ^ 53 := (regular_of_unpack hx).lt
  have hpos : (0 : ℚ) < 2 ^ e := zpow_pos two_pos e
  obtain ⟨hnear, hbelow⟩ := nearest_of_contains hm h
  obtain ⟨hlo, hhi⟩ := abs_le.1 hnear.close
  have hm' : (2 ^ 52 : ℚ) ≤ m := by exact_mod_cast hm
  have hm'' : (m : ℚ) + 1 ≤ 2 ^ 53 := by exact_mod_cast hlt
  have hpow : ∀ k : ℤ, (2 : ℚ) ^ (k + e) ≤ n ↔ (2 : ℚ) ^ k ≤ n / 2 ^ e := fun k => by
    rw [zpow_add₀ two_ne_zero, le_div_iff₀ hpos]
  have htop : (n : ℚ) < 2 ^ (52 + e + 1) := by
    have hk : 52 + e + 1 = 53 + e := by omega
    rw [hk, zpow_add₀ two_ne_zero, ← div_lt_iff₀ hpos]
    norm_num
    linarith
  -- the digits of the number are nearest to it in units of its own last place
  have hsame : ∀ r : ℕ, n ≠ 0 → n.log2 < 1000 → Nearest r (n / 2 ^ ((n.log2 : ℤ) - 52)) →
      (m : ℚ) * 2 ^ e = r * 2 ^ ((n.log2 : ℤ) - 52) → Float.ofNat n = x := by
    intro r hn hlog hr hvalue
    obtain ⟨r', m', e', hp', hu, hfull, hr', hvalue'⟩ := exists_unpack_ofNat_nearest hn hlog
    rw [← hr.eq hr', ← hvalue] at hvalue'
    obtain ⟨rfl, rfl⟩ := eq_of_mul_zpow_eq hfull ⟨hm, hlt⟩ hvalue'
    exact eq_of_unpack_eq (hu.trans hx.symm)
  have hn : n ≠ 0 := by
    rintro rfl
    rw [Nat.cast_zero, zero_div] at hhi
    linarith
  rcases le_or_gt ((2 : ℚ) ^ (52 + e)) n with hle | hgt
  · have hlog := log2_eq hle htop
    have hunit : (n.log2 : ℤ) - 52 = e := by omega
    refine hsame m hn (by omega) ?_ ?_
    · rw [hunit]
      exact hnear
    · rw [hunit]
  · -- below the least double with its last place, which has to be this one, the places are finer
    have hleast : m = 2 ^ 52 := by
      by_contra hne
      have hnext : (2 ^ 52 + 1 : ℚ) ≤ m := by exact_mod_cast (show 2 ^ 52 + 1 ≤ m by omega)
      exact hgt.not_ge ((hpow 52).2 (by norm_num; linarith))
    subst hleast
    have hquarter := hbelow rfl hexp.1
    have hbound : n / (2 : ℚ) ^ e < 2 ^ (52 : ℤ) := not_le.1 fun hle => hgt.not_ge ((hpow 52).2 hle)
    have hnext : 52 + e = 51 + e + 1 := by omega
    rw [hnext] at hgt
    have hlog := log2_eq ((hpow 51).2 (by norm_num at hquarter ⊢; linarith)) hgt
    have hunit : (n.log2 : ℤ) - 52 = e - 1 := by omega
    have hhalf : (2 : ℚ) ^ (e - 1) = 2 ^ e / 2 := by
      rw [zpow_sub₀ two_ne_zero, zpow_one]
    refine hsame (2 ^ 53) hn (by omega) ⟨?_, fun _ => ⟨2 ^ 52, by norm_num⟩⟩ ?_
    · rw [hunit, hhalf, div_div_eq_mul_div, mul_div_right_comm, abs_le]
      norm_num at hquarter hbound ⊢
      constructor <;> linarith
    · rw [hunit, hhalf]
      push_cast
      ring

end interval

/-! ## Reading back -/

theorem toFloat_natural (n : ℕ) : Decimal.toFloat ⟨n, 0⟩ = Float.ofNat n :=
  rfl

/-- The digits of a whole double, which the first grids are too coarse for and the last ones finer
than is needed. -/
theorem exists_ofDouble {m n : ℕ} {e : ℤ} (hm : 2 ^ 52 ≤ m ∧ m < 2 ^ 53) (hn : (m : ℚ) * 2 ^ e = n)
    (hexp : -53 < e ∧ e < 13) :
    ∃ c j : ℕ, ofDouble m e = ⟨c, j⟩ ∧ (Interval.ofDouble m e).Contains (c * 10 ^ j : ℕ) := by
  have hlog : m.log2 = 52 := (Nat.log2_eq_iff (by omega)).2 hm
  obtain ⟨k, hk⟩ := Int.eq_ofNat_of_zero_le
    (show 0 ≤ ((m.log2 : ℤ) + e + 2) * 30103 / 100000 + 1 by omega)
  have hlow : (Interval.ofDouble m e).low < (Interval.ofDouble m e).value := by
    unfold Interval.ofDouble
    dsimp only
    split <;> omega
  have hhigh : (Interval.ofDouble m e).value < (Interval.ofDouble m e).high :=
    Nat.lt_add_of_pos_right (by decide)
  have hvalue : ((Interval.ofDouble m e).value : ℚ) * 2 ^ (Interval.ofDouble m e).scale = n := by
    rw [← hn, show (Interval.ofDouble m e).value = 4 * m from rfl,
      show (Interval.ofDouble m e).scale = e - 2 from rfl, zpow_sub₀ two_ne_zero]
    push_cast
    ring
  obtain ⟨c, j, hsearch, hgrid⟩ := Interval.exists_search
    (Interval.exists_onGrid?_zero hlow hhigh hvalue) (show k < 24 by omega)
  refine ⟨c, j, ?_, ?_⟩
  · rw [ofDouble, hk]
    exact hsearch
  · have hcontains := Interval.contains_of_onGrid? hgrid
    exact_mod_cast hcontains

/-- A whole double of at most 65 bits is read back from its text. -/
theorem readsBack_of_whole {x : Float} (hx : Unsigned x) {n : ℕ} (hn : Whole x n)
    (h : n < 2 ^ 65) : ReadsBack x := by
  rcases hx.unpack with hzero | ⟨m, e, hp, hu⟩
  · obtain rfl : x = 0 := eq_of_unpack_eq hzero
    decide
  · obtain ⟨hm, hvalue⟩ : 2 ^ 52 ≤ m ∧ (m : ℚ) * 2 ^ e = n := by
      rcases hn.unpack with ⟨-, s, hs⟩ | ⟨s, m', e', hp', hu', hm, a, -, ha, hvalue⟩
      · exact absurd (hu.symm.trans hs) nofun
      · cases hu.symm.trans hu'
        obtain rfl : n = a := Int.ofNat_inj.1 ha
        exact ⟨hm, hvalue.symm⟩
    have hlt : m < 2 ^ 53 := (regular_of_unpack hu).lt
    have hexp : -53 < e ∧ e < 13 := by
      obtain ⟨hlo, hhi⟩ := mul_zpow_bounds ⟨hm, hlt⟩ e
      rw [hvalue] at hlo hhi
      have hone : (2 : ℚ) ^ (0 : ℤ) ≤ n := by
        have hpos : (0 : ℚ) < n := (zpow_pos two_pos _).trans_le hlo
        exact_mod_cast hpos
      have hbound : (n : ℚ) < 2 ^ (65 : ℤ) := by exact_mod_cast h
      have hleft := (zpow_lt_zpow_iff_right₀ one_lt_two).1 (hone.trans_lt hhi)
      have hright := (zpow_lt_zpow_iff_right₀ one_lt_two).1 (hlo.trans_lt hbound)
      omega
    obtain ⟨c, j, hdigits, hcontains⟩ := exists_ofDouble ⟨hm, hlt⟩ hvalue hexp
    have htext : Shortest.text x = Decimal.text ⟨c, j⟩ := by
      rw [Shortest.text, hu, ← hdigits]
      rfl
    have hread := (ofText?_of_positional (Decimal.positional_text ⟨c, j⟩)
      (Decimal.read?_text c j)).1
    rw [ReadsBack, htext, hread, toFloat_natural,
      ofNat_eq_of_contains hm hcontains (by omega) hu]

/-- Numbers of 64 bits are read back from their texts. -/
theorem readsBack_ofNat {n : ℕ} (h : n < 2 ^ 64) : ReadsBack (Float.ofNat n) := by
  have hunsigned := unsigned_ofNat h
  obtain ⟨b, hb, hwhole⟩ := exists_whole_ofNat hunsigned.finite
  -- rounding moves the number by less than itself, and keeps it below `2 ^ 65`
  obtain ⟨hnonneg, hlt⟩ : 0 ≤ b ∧ b < 2 ^ 65 := by
    rcases hb with rfl | hclose
    · omega
    · have hle := le_abs_self (b - n)
      have hge := neg_abs_le (b - n)
      rw [Nat.abs_cast] at hclose
      omega
  obtain ⟨k, rfl⟩ := Int.eq_ofNat_of_zero_le hnonneg
  exact readsBack_of_whole hunsigned hwhole (by omega)

/-- A number of 64 bits above one is a double above one. -/
theorem one_lt_ofNat {n : ℕ} (hn : 1 < n) (h : n < 2 ^ 64) : (1 : Float) < Float.ofNat n := by
  have hunsigned := unsigned_ofNat h
  obtain ⟨b, hb, hwhole⟩ := exists_whole_ofNat hunsigned.finite
  have htwo : 2 ≤ b := by
    rcases hb with rfl | hclose
    · omega
    · have hge := neg_abs_le (b - n)
      rw [Nat.abs_cast] at hclose
      omega
  have htwo' : (2 : ℚ) ^ (1 : ℤ) ≤ b := by exact_mod_cast htwo
  have hone : (1 : Float).toModel.unpack = .finite .positive (2 ^ 52) (-52) (by decide) := rfl
  rcases hunsigned.unpack with hzero | ⟨m, e, hp, hu⟩
  · rw [← hwhole.value_eq, value_of_zero hzero] at htwo'
    norm_num at htwo'
  · have hlt : (m : ℚ) * 2 ^ e < 2 ^ (53 + e) := by
      rw [zpow_add₀ two_ne_zero]
      exact mul_lt_mul_of_pos_right (by exact_mod_cast (regular_of_unpack hu).lt)
        (zpow_pos two_pos e)
    have hvalue : (b : ℚ) = m * 2 ^ e := by
      rw [← hwhole.value_eq, value_of_finite hu]
      rfl
    rw [← hvalue] at hlt
    have hexp := (zpow_lt_zpow_iff_right₀ one_lt_two).1 (htwo'.trans_lt hlt)
    have hcompare : Ord.compare (-52) e = .lt := Int.compare_eq_lt.2 (by omega)
    rw [lt_iff, hone, hu, UnpackedFloat.lt, UnpackedFloat.compare, hcompare]
    rfl

end Double

end WorstCase
