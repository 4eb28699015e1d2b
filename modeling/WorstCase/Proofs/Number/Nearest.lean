import WorstCase.Proofs.Number.Double

/-!
# Rounding to the nearest double

Rounding shifts digits out until 53 are left. The last one shifted out, and whether one before it
was not zero, tell on which side of the half the number lies (`Stands`), so that the 53 digits are
those of the nearest number, of two the even one (`exists_roundWithAccuracy`). What has more than
1024 places then is packed as an infinity (`unpack_pack_high`).
-/

namespace WorstCase.Double

open Float.Model Float.Model.UnpackedFloat

/-! ## Digits and the bits behind them -/

/-- The digits stand for `x`: the two bits behind them tell where it lies before the next number. -/
def Stands (em : ExtendedMantissa) (x : ℚ) : Prop :=
  match em.roundBit, em.stickyBit with
  | false, false => x = em.mantissa
  | false, true => em.mantissa < x ∧ x < em.mantissa + 1 / 2
  | true, false => x = em.mantissa + 1 / 2
  | true, true => em.mantissa + 1 / 2 < x ∧ x < em.mantissa + 1

theorem Stands.shiftRightOne {em : ExtendedMantissa} {x : ℚ} (h : Stands em x) :
    Stands em.shiftRightOne (x / 2) := by
  obtain ⟨m, round, sticky⟩ := em
  have hm : ((m % 2 : ℕ) : ℚ) + 2 * ((m / 2 : ℕ) : ℚ) = m := by exact_mod_cast Nat.mod_add_div m 2
  rcases Nat.mod_two_eq_zero_or_one m with hmod | hmod <;> rw [hmod] at hm <;>
    cases round <;> cases sticky <;>
    simp only [Stands, ExtendedMantissa.shiftRightOne, hmod, Bool.or_self, Bool.or_true,
      Bool.or_false, bne_self_eq_false, Nat.cast_zero, Nat.cast_one] at h hm ⊢ <;>
    grind

theorem Stands.shiftRight {em : ExtendedMantissa} {x : ℚ} (h : Stands em x) (k : Nat) :
    Stands (em >>> k) (x / 2 ^ k) := by
  have hrep : ∀ i, Stands (Nat.repeat ExtendedMantissa.shiftRightOne i em) (x / 2 ^ i) := by
    intro i
    induction i with
    | zero => simpa [Nat.repeat] using h
    | succ i ih =>
      rw [Nat.repeat, pow_succ, ← div_div]
      exact ih.shiftRightOne
  exact hrep k

/-- The natural number nearest to `x`; of two, the even one. -/
structure Nearest (r : Nat) (x : ℚ) : Prop where
  close : |r - x| ≤ 1 / 2
  even : |r - x| = 1 / 2 → Even r

theorem Stands.nearest {em : ExtendedMantissa} {x : ℚ} (h : Stands em x) :
    Nearest em.roundedMantissa x := by
  have hside : ∀ r : Nat, |r - x| < 1 / 2 → Nearest r x := fun r hr =>
    ⟨hr.le, fun heq => absurd heq hr.ne⟩
  obtain ⟨m, round, sticky⟩ := em
  cases round <;> cases sticky
  · have hx : x = m := h
    refine hside m ?_
    rw [hx, sub_self, abs_zero]
    norm_num
  · obtain ⟨hlo, hhi⟩ : (m : ℚ) < x ∧ x < m + 1 / 2 := h
    exact hside m (abs_lt.2 ⟨by linarith, by linarith⟩)
  · -- in the middle, the even one of the two is taken
    have hx : x = m + 1 / 2 := h
    have hr : ExtendedMantissa.roundedMantissa ⟨m, true, false⟩ = m + m % 2 := rfl
    have heven : Even (m + m % 2) := by grind
    have hclose : |((m + m % 2 : ℕ) : ℚ) - x| = 1 / 2 := by
      rcases Nat.mod_two_eq_zero_or_one m with hmod | hmod <;> rw [hmod, hx] <;> push_cast <;> grind
    rw [hr]
    exact ⟨hclose.le, fun _ => heven⟩
  · obtain ⟨hlo, hhi⟩ : (m : ℚ) + 1 / 2 < x ∧ x < m + 1 := h
    have hr : ExtendedMantissa.roundedMantissa ⟨m, true, true⟩ = m + 1 := rfl
    rw [hr]
    refine hside (m + 1) (abs_lt.2 ⟨?_, ?_⟩) <;> push_cast <;> linarith

namespace Nearest

theorem eq {r s : Nat} {x : ℚ} (hr : Nearest r x) (hs : Nearest s x) : r = s := by
  by_contra hne
  -- two different numbers are one apart at least, so that both are a half away
  have hgap : (1 : ℚ) ≤ |(r : ℚ) - s| := by
    have hint : (1 : ℤ) ≤ |(r : ℤ) - s| := Int.one_le_abs (by omega)
    exact_mod_cast hint
  have htri : |(r : ℚ) - s| ≤ |(r : ℚ) - x| + |(s : ℚ) - x| := by
    rw [abs_sub_comm (s : ℚ) x]
    exact abs_sub_le _ _ _
  have hrc := hr.close
  have hsc := hs.close
  have her := hr.even (by linarith)
  have hes := hs.even (by linarith)
  have hone : |(r : ℚ) - s| ≤ 1 := by linarith
  have hint : |(r : ℤ) - s| ≤ 1 := by exact_mod_cast hone
  rw [abs_le] at hint
  grind

/-- A larger number has no smaller nearest number. -/
theorem mono {r s : Nat} {x y : ℚ} (hr : Nearest r x) (hs : Nearest s y) (h : x ≤ y) : r ≤ s := by
  by_contra hlt
  have hgap : (s : ℚ) + 1 ≤ r := by exact_mod_cast (show s + 1 ≤ r by omega)
  have hrc := abs_le.1 hr.close
  have hsc := abs_le.1 hs.close
  -- both are a half away from one number, which has one nearest number
  obtain rfl : x = y := by linarith
  exact hlt (hr.eq hs).le

theorem natCast (n : Nat) : Nearest n n :=
  ⟨by norm_num, fun h => by norm_num at h⟩

theorem of_natCast {r n : Nat} (h : Nearest r n) : r = n :=
  h.eq (natCast n)

end Nearest

/-! ## Rounding to 53 digits -/

theorem mantissa_shiftRight (em : ExtendedMantissa) (k : Nat) :
    (em >>> k).mantissa = em.mantissa / 2 ^ k := by
  have hrep : ∀ i, (Nat.repeat ExtendedMantissa.shiftRightOne i em).mantissa =
      em.mantissa / 2 ^ i := by
    intro i
    induction i with
    | zero => simp [Nat.repeat]
    | succ i ih =>
      rw [Nat.repeat, ExtendedMantissa.shiftRightOne, ih, Nat.div_div_eq_div_mul, Nat.pow_succ]
  exact hrep k

theorem roundedMantissa_eq_or (em : ExtendedMantissa) :
    em.roundedMantissa = em.mantissa ∨ em.roundedMantissa = em.mantissa + 1 := by
  obtain ⟨m, round, sticky⟩ := em
  cases round <;> cases sticky
  · exact .inl rfl
  · exact .inl rfl
  · have heven : m + m % 2 = m ∨ m + m % 2 = m + 1 := by omega
    exact heven
  · exact .inr rfl

/-- The first shift leaves 53 digits. -/
theorem exists_shiftToTargetExponent {m : Nat} {e : Int} (hm : 2 ^ 52 ≤ m)
    (hlow : -1022 ≤ m.log2 + e) : ∃ em, 2 ^ 52 ≤ em.mantissa ∧ em.mantissa < 2 ^ 53 ∧
      Stands em (m / 2 ^ (m.log2 - 52)) ∧
      shiftToTargetExponent Format.binary64 m e .exact = (em, m.log2 + e - 52) := by
  have hne : m ≠ 0 := by omega
  obtain ⟨k, hk⟩ := Nat.exists_eq_add_of_le ((Nat.le_log2 hne).2 hm)
  have htarget : Format.binary64.targetExponent (totalExponent m e) = e + k := by
    simp only [Format.targetExponent, totalExponent, Format.mantissaBits, Format.minExponent]
    omega
  have hshift : (e + k - e).toNat = k := by omega
  have hexp : (m.log2 : Int) + e - 52 = e + k := by omega
  refine ⟨ExtendedMantissa.ofMantissaAndAccuracy m .exact >>> k, ?_, ?_, ?_, ?_⟩
  · rw [mantissa_shiftRight, Nat.le_div_iff_mul_le (Nat.two_pow_pos k), ← Nat.pow_add, ← hk]
    exact Nat.log2_self_le hne
  · rw [mantissa_shiftRight, Nat.div_lt_iff_lt_mul (Nat.two_pow_pos k), ← Nat.pow_add,
      Nat.add_right_comm 52 1 k, ← hk]
    exact Nat.lt_log2_self
  · have hstands : Stands (ExtendedMantissa.ofMantissaAndAccuracy m .exact) m := rfl
    rw [hk, Nat.add_sub_cancel_left]
    exact hstands.shiftRight k
  · rw [shiftToTargetExponent, htarget, shiftToExponent, hshift, hexp]

/-- Rounding 53 digits up may give the digits one more place, which the second shift takes away. -/
theorem exists_canonical_of_rounded {r : Nat} {e : Int} (hlo : 2 ^ 52 ≤ r) (hhi : r ≤ 2 ^ 53)
    (hlow : -1074 ≤ e) : ∃ m' e', Canonical m' e' ∧ 2 ^ 52 ≤ m' ∧ e' ≤ e + 1 ∧
      (m' : ℚ) * 2 ^ e' = r * 2 ^ e ∧
      shiftToTargetExponent Format.binary64 r e .exact = (⟨m', false, false⟩, e') := by
  rcases Nat.lt_or_eq_of_le hhi with hhi | rfl
  · have hcan : Canonical r e := ⟨by omega, hhi, hlow, .inl hlo⟩
    have hshift := hcan.shiftToTargetExponent_eq 0
    rw [Nat.pow_zero, Nat.mul_one, Int.ofNat_zero, Int.sub_zero] at hshift
    exact ⟨r, e, hcan, hlo, by omega, rfl, hshift⟩
  · have hcan : Canonical (2 ^ 52) (e + 1) := ⟨by decide, by decide, by omega, .inl le_rfl⟩
    have hshift := hcan.shiftToTargetExponent_eq 1
    rw [← Nat.pow_add, Nat.cast_one, add_sub_cancel_right] at hshift
    refine ⟨2 ^ 52, e + 1, hcan, le_rfl, le_rfl, ?_, hshift⟩
    rw [zpow_add_one₀ two_ne_zero]
    push_cast
    ring

/-- Digits after the first 53 are rounded away. -/
theorem exists_roundWithAccuracy {m : Nat} {e : Int} (hm : 2 ^ 52 ≤ m) (hlow : -1022 ≤ m.log2 + e)
    (s : Sign) : ∃ r m' e', ∃ h : Canonical m' e', Nearest r (m / 2 ^ (m.log2 - 52)) ∧
      2 ^ 52 ≤ m' ∧ e' ≤ m.log2 + e - 51 ∧ (m' : ℚ) * 2 ^ e' = r * 2 ^ (m.log2 + e - 52) ∧
      roundWithAccuracy Format.binary64 s m e .exact = .finite s m' e' h.pos := by
  obtain ⟨em, hlo, hhi, hstands, hfirst⟩ := exists_shiftToTargetExponent hm hlow
  have hround := roundedMantissa_eq_or em
  obtain ⟨m', e', hcan, hfull, hexp, hvalue, hsecond⟩ := exists_canonical_of_rounded
    (r := em.roundedMantissa) (e := m.log2 + e - 52) (by omega) (by omega) (by omega)
  refine ⟨em.roundedMantissa, m', e', hcan, hstands.nearest, hfull, by omega, hvalue, ?_⟩
  rw [roundWithAccuracy, hfirst]
  simp only [hsecond, hcan.pos.ne', ↓reduceDIte]

/-- Digits from the place of the smallest double on are not rounded to zero. -/
theorem exists_round_canonical {m : Nat} {e : Int} (hm : m ≠ 0) (he : -1074 ≤ e) (s : Sign) :
    ∃ m' e', ∃ h : Canonical m' e',
      UnpackedFloat.round Format.binary64 s m e = .finite s m' e' h.pos := by
  have htarget : Format.binary64.targetExponent (totalExponent m e) =
      max (-1074) (m.log2 + e - 52) := by
    simp only [Format.targetExponent, totalExponent, Format.mantissaBits, Format.minExponent]
    omega
  simp only [UnpackedFloat.round, htarget, decreaseExponent, Nat.shiftLeft_eq]
  rcases Nat.lt_or_ge 52 m.log2 with hlong | hshort
  · have hshift : (e - max (-1074) ((m.log2 : Int) + e - 52)).toNat = 0 := by omega
    rw [hshift, Nat.pow_zero, Nat.mul_one, Nat.cast_zero, Int.sub_zero]
    obtain ⟨-, m', e', hcan, -, -, -, -, hround⟩ := exists_roundWithAccuracy
      ((Nat.le_log2 hm).1 hlong.le) (e := e) (by omega) s
    exact ⟨m', e', hcan, hround⟩
  · -- zeros are put behind the digits until there are 53 or the place is the smallest
    obtain ⟨j, hj⟩ := Int.eq_ofNat_of_zero_le
      (show 0 ≤ e - max (-1074) ((m.log2 : Int) + e - 52) by omega)
    have hlog := log2_shifted hm j
    have hne : m * 2 ^ j ≠ 0 := Nat.mul_ne_zero hm (Nat.two_pow_pos j).ne'
    have hcan : Canonical (m * 2 ^ j) (e - j) := by
      refine ⟨Nat.pos_of_ne_zero hne, (Nat.log2_lt hne).1 (by omega), by omega, ?_⟩
      refine (Nat.lt_or_ge (m * 2 ^ j).log2 52).symm.imp (Nat.le_log2 hne).1 fun hlow => ?_
      omega
    have hround := hcan.roundWithAccuracy_eq s 0
    rw [Nat.pow_zero, Nat.mul_one, Nat.cast_zero, Int.sub_zero] at hround
    rw [hj, Int.toNat_natCast]
    exact ⟨_, _, hcan, hround⟩

/-- What is too large is packed as an infinity. -/
theorem unpack_pack_high {m : Nat} {e : Int} (hp : 0 < m) (he : 971 < e) (s : Sign) :
    (Float.Model.pack (.finite s m e hp)).unpack = .infinity s := by
  have hlarge : 2 ^ Format.binary64.exponentBits ≤
      (e + Format.binary64.exponentBias + (52 : Nat)).toNat + 1 := by
    simp only [Format.exponentBias]
    omega
  have hpack : UnpackedFloat.pack Format.binary64 (.finite s m e hp) =
      packedInfinity Format.binary64 s := by
    simp only [UnpackedFloat.pack, hlarge, ↓reduceIte]
  have hmodel : Float.Model.pack (.finite s m e hp) = Float.Model.pack (.infinity s) := by
    simp only [Float.Model.pack, hpack]
    rfl
  rw [hmodel]
  cases s <;> rfl

theorem unpack_pack_ne_zero {m : Nat} {e : Int} (h : Canonical m e) (s t : Sign) :
    (Float.Model.pack (.finite s m e h.pos)).unpack ≠ .zero t := by
  intro hzero
  rcases le_or_gt e 971 with hhigh | hhigh
  · rw [Regular.unpack_pack ⟨h, hhigh⟩ s] at hzero
    cases hzero
  · rw [unpack_pack_high h.pos hhigh s] at hzero
    cases hzero

/-! ## Long natural numbers -/

/-- The double of a natural number with more than 53 digits is the number, rounded. -/
theorem ofNat_long {n : Nat} (hlo : 2 ^ 53 ≤ n) :
    Float.ofNat n = Float.ofModel (Float.Model.pack
      (roundWithAccuracy Format.binary64 .positive (n * 2 ^ 53) (-53) .exact)) := by
  have hn : n ≠ 0 := by omega
  have hlong : ¬ (n < 2 ^ 53 ∧ 0 ≤ 22) := fun h => by omega
  have hslow : Float.ofNat n = Float.ofModel (Float.Model.ofScientific n 0) := by
    simp only [Float.ofNat, OfScientific.ofScientific, Float.ofScientific, hlong,
      Bool.false_eq_true, ↓reduceIte]
    rfl
  have hhigh : ¬ (2 : Int) ^ Format.binary64.exponentBits < 0 := by decide
  have hlow : ¬ (0 : Int) < -(2 ^ Format.binary64.exponentBits + n.log2) := by omega
  have hbits : Format.binary64.mantissaBits = 53 := rfl
  have hbits' : -((53 : Nat) : Int) = -53 := rfl
  have hsign : Sign.positive * Sign.positive = Sign.positive := rfl
  rw [hslow, Float.Model.ofScientific, UnpackedFloat.ofScientific]
  simp only [hn, hlow, hhigh, hbits, hbits', ↓reduceDIte, ↓reduceIte, UnpackedFloat.mul, hsign,
    Nat.shiftLeft_eq, Int.toNat_zero, Nat.pow_zero, Nat.mul_one, Int.add_zero, le_refl]

/-- A positive natural number of 64 bits is a positive double. -/
theorem exists_unpack_ofNat_word {n : Nat} (hn : n ≠ 0) (h : n < 2 ^ 64) :
    ∃ m e hp, (Float.ofNat n).toModel.unpack = .finite .positive m e hp := by
  rcases Nat.lt_or_ge n (2 ^ 53) with hlt | hle
  · obtain ⟨hp, hu⟩ := unpack_ofNat hn hlt
    exact ⟨_, _, hp, hu⟩
  · have hlog : n.log2 < 64 := (Nat.log2_lt hn).2 h
    have hlong : (n * 2 ^ 53).log2 = n.log2 + 53 := log2_shifted hn 53
    obtain ⟨r, m, e, hcan, -, -, hexp, -, hround⟩ := exists_roundWithAccuracy (m := n * 2 ^ 53)
      (e := -53) (by omega) (by omega) .positive
    refine ⟨m, e, hcan.pos, ?_⟩
    rw [ofNat_long hle, hround]
    exact Regular.unpack_pack ⟨hcan, by omega⟩ .positive

end WorstCase.Double
