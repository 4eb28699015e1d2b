import WorstCase.Proofs.Number.Arithmetic

/-!
# Whole doubles

A double that stands for a whole number (`Whole`) keeps doing so under multiplication and addition,
as long as the outcome is finite: what is rounded away lies behind the point only up to `2 ^ 53`,
where nothing is rounded away. The outcome is the exact one up to `Rounded`: the same number, or one
that is off by less than a part in `2 ^ 53`. Doubles that cancel out, whole or not, leave a zero
with a plus (`add_ne_neg_zero`).
-/

namespace WorstCase.Double

open Float.Model Float.Model.UnpackedFloat

/-- A finite double that stands for a whole number. -/
structure Whole (x : Float) (n : ℤ) : Prop where
  finite : x.isFinite
  value_eq : value x = n

/-- What rounding may make of a whole number. -/
def Rounded (a b : ℤ) : Prop :=
  b = a ∨ |b - a| * 2 ^ 53 < |a|

namespace Rounded

variable {a b : ℤ}

theorem refl (a : ℤ) : Rounded a a :=
  .inl rfl

theorem apply {a b : ℕ} (h : Rounded a b) (s : Sign) : Rounded (s.apply a) (s.apply b) := by
  cases s with
  | positive => exact h
  | negative =>
    refine h.imp (congrArg Neg.neg) fun hlt => ?_
    rw [Sign.apply, Sign.apply, abs_neg, neg_sub_neg, abs_sub_comm]
    exact hlt

/-- Up to `2 ^ 53` nothing is rounded away. -/
theorem eq_of_le (h : Rounded a b) (ha : |a| ≤ 2 ^ 53) : b = a := by
  by_contra hne
  have hlt := h.resolve_left hne
  have hgap : 1 ≤ |b - a| := Int.one_le_abs (sub_ne_zero.2 hne)
  omega

theorem abs_sub_le (h : Rounded a b) : (|(b : ℚ) - a|) ≤ 1 / 2 ^ 53 * |(a : ℚ)| := by
  rcases h with rfl | hlt
  · rw [sub_self, abs_zero]
    positivity
  · have hcast : |(b : ℚ) - a| * 2 ^ 53 < |(a : ℚ)| := by exact_mod_cast hlt
    linarith

end Rounded

/-! ## Rounding whole numbers -/

/-- A number with `52 + j` or more places is rounded by half a unit of place `j` at most. -/
theorem Nearest.rounded {a r j : ℕ} {x : ℚ} (h : Nearest r x) (hx : x * 2 ^ j = a)
    (hle : 2 ^ (52 + j) ≤ a) : Rounded a (r * 2 ^ j : ℕ) := by
  have hpos : (0 : ℚ) < 2 ^ j := by positivity
  rcases hle.lt_or_eq with hlt | heq
  · right
    have hdiff : ((r * 2 ^ j : ℕ) : ℚ) - a = (r - x) * 2 ^ j := by
      rw [← hx]
      push_cast
      ring
    have hclose : |((r * 2 ^ j : ℕ) : ℚ) - a| * 2 ^ 53 ≤ 2 ^ (52 + j) := by
      rw [hdiff, abs_mul, abs_of_pos hpos, pow_add]
      linarith [mul_le_mul_of_nonneg_right h.close hpos.le]
    have hcast : (2 : ℚ) ^ (52 + j) < a := by exact_mod_cast hlt
    have hq : |((r * 2 ^ j : ℕ) : ℚ) - a| * 2 ^ 53 < (a : ℕ) := hclose.trans_lt hcast
    rw [Nat.abs_cast]
    exact_mod_cast hq
  · -- a power of two is kept
    left
    have hwhole : x = (2 ^ 52 : ℕ) := by
      refine mul_right_cancel₀ hpos.ne' (hx.trans ?_)
      rw [← heq, pow_add]
      push_cast
      rfl
    rw [hwhole] at h
    rw [h.of_natCast, ← pow_add, heq]

section rounding

variable {a m : ℕ} {e : ℤ} (ha : (a : ℚ) = m * 2 ^ e) (ha0 : a ≠ 0)

include ha ha0

/-- A whole number other than zero has no digit behind the point before its first. -/
theorem log2_add_nonneg : 0 ≤ m.log2 + e ∧ (2 : ℚ) ^ (m.log2 + e) ≤ a := by
  have hm : m ≠ 0 := by
    rintro rfl
    rw [Nat.cast_zero, zero_mul] at ha
    exact ha0 (by exact_mod_cast ha)
  have hpos : (0 : ℚ) < 2 ^ e := zpow_pos two_pos e
  have hlow : (2 : ℚ) ^ m.log2 ≤ m := by exact_mod_cast Nat.log2_self_le hm
  have hhigh : (m : ℚ) < 2 ^ (m.log2 + 1) := by exact_mod_cast Nat.lt_log2_self
  constructor
  · have hone : (1 : ℚ) ≤ a := by exact_mod_cast Nat.one_le_iff_ne_zero.2 ha0
    have hlt : (2 : ℚ) ^ (0 : ℤ) < 2 ^ (((m.log2 + 1 : ℕ) : ℤ) + e) := by
      rw [zpow_add₀ two_ne_zero, zpow_natCast, zpow_zero]
      calc (1 : ℚ) ≤ m * 2 ^ e := ha ▸ hone
        _ < 2 ^ (m.log2 + 1) * 2 ^ e := mul_lt_mul_of_pos_right hhigh hpos
    have := (zpow_lt_zpow_iff_right₀ one_lt_two).1 hlt
    push_cast at this
    omega
  · rw [zpow_add₀ two_ne_zero, zpow_natCast, ha]
    exact mul_le_mul_of_nonneg_right hlow hpos.le

/-- A whole number is rounded to a whole number. -/
theorem exists_rounded (hm : 2 ^ 52 ≤ m) (s : Sign) : ∃ b : ℕ, Rounded a b ∧
    ∃ m' e', ∃ h : Canonical m' e', (m' : ℚ) * 2 ^ e' = b ∧
      roundWithAccuracy Format.binary64 s m e .exact = .finite s m' e' h.pos := by
  obtain ⟨hlog, hle⟩ := log2_add_nonneg ha ha0
  obtain ⟨r, m', e', hcan, hnear, -, -, hvalue, hround⟩ :=
    exists_roundWithAccuracy hm (e := e) (by omega) s
  have hdigits : 52 ≤ m.log2 := (Nat.le_log2 (by omega)).2 hm
  -- the number in units of its last place
  have hscale : (m : ℚ) / 2 ^ (m.log2 - 52) * 2 ^ (m.log2 + e - 52) = a := by
    have hexp : (m.log2 : ℤ) + e - 52 = ((m.log2 - 52 : ℕ) : ℤ) + e := by omega
    rw [hexp, zpow_add₀ two_ne_zero, zpow_natCast, ha]
    field_simp
  rcases le_or_gt 0 (m.log2 + e - 52) with hplace | hplace
  · obtain ⟨j, hj⟩ := Int.eq_ofNat_of_zero_le hplace
    have hexp : (m.log2 : ℤ) + e = ((52 + j : ℕ) : ℤ) := by push_cast; omega
    rw [hj, zpow_natCast] at hscale hvalue
    rw [hexp, zpow_natCast] at hle
    refine ⟨r * 2 ^ j, hnear.rounded hscale (by exact_mod_cast hle), m', e', hcan, ?_, hround⟩
    rw [hvalue]
    push_cast
    rfl
  · -- the number has fewer than 53 digits, so all of them are kept
    obtain ⟨j, hj⟩ := Int.eq_ofNat_of_zero_le (show 0 ≤ -((m.log2 : ℤ) + e - 52) by omega)
    have hneg : (m.log2 : ℤ) + e - 52 = -(j : ℤ) := by omega
    rw [hneg, zpow_neg, zpow_natCast] at hscale hvalue
    have hx : (m : ℚ) / 2 ^ (m.log2 - 52) = ((a * 2 ^ j : ℕ) : ℚ) := by
      push_cast
      rw [← hscale, inv_mul_cancel_right₀ (by positivity)]
    rw [hx] at hnear
    refine ⟨a, .refl _, m', e', hcan, ?_, hround⟩
    rw [hvalue, hnear.of_natCast]
    push_cast
    field_simp

/-- With too few digits, zeros are put behind them first. -/
theorem exists_round (s : Sign) : ∃ b : ℕ, Rounded a b ∧
    ∃ m' e', ∃ h : Canonical m' e', (m' : ℚ) * 2 ^ e' = b ∧
      UnpackedFloat.round Format.binary64 s m e = .finite s m' e' h.pos := by
  obtain ⟨hlog, -⟩ := log2_add_nonneg ha ha0
  have hm : m ≠ 0 := by
    rintro rfl
    rw [Nat.cast_zero, zero_mul] at ha
    exact ha0 (by exact_mod_cast ha)
  have htarget : Format.binary64.targetExponent (totalExponent m e) = (m.log2 : Int) + e - 52 := by
    simp only [Format.targetExponent, totalExponent, Format.mantissaBits, Format.minExponent]
    omega
  have hshift : (e - ((m.log2 : Int) + e - 52)).toNat = 52 - m.log2 := by omega
  have hlong : 2 ^ 52 ≤ m * 2 ^ (52 - m.log2) := by
    calc 2 ^ 52 ≤ 2 ^ m.log2 * 2 ^ (52 - m.log2) := by
          rw [← Nat.pow_add]
          exact Nat.pow_le_pow_right two_pos (by omega)
      _ ≤ m * 2 ^ (52 - m.log2) := Nat.mul_le_mul_right _ (Nat.log2_self_le hm)
  have hsame : (a : ℚ) = ((m * 2 ^ (52 - m.log2) : ℕ) : ℚ) * 2 ^ (e - ((52 - m.log2 : ℕ) : ℤ)) := by
    rw [zpow_sub₀ two_ne_zero, zpow_natCast, ha]
    push_cast
    field_simp
  simp only [UnpackedFloat.round, htarget, decreaseExponent, hshift, Nat.shiftLeft_eq]
  exact exists_rounded hsame ha0 hlong s

end rounding

/-! ## Operations -/

/-- A double with the digits of a whole number is whole if it is finite. -/
theorem whole_of_canonical {x : Float} {s : Sign} {m b : ℕ} {e : ℤ} (h : Canonical m e)
    (hb : (m : ℚ) * 2 ^ e = b) (hx : x.toModel = Float.Model.pack (.finite s m e h.pos))
    (hfin : x.isFinite) : Whole x (s.apply b) := by
  have hhigh : e ≤ 971 := by
    by_contra hhigh
    have hinf : x.toModel.unpack = .infinity s := by
      rw [hx]
      exact unpack_pack_high h.pos (not_le.1 hhigh) s
    rcases unpack_of_isFinite hfin with ⟨t, ht⟩ | ⟨t, m', e', hp, ht⟩ <;>
      rw [hinf] at ht <;> cases ht
  refine ⟨hfin, ?_⟩
  have hregular : Regular m e := ⟨h, hhigh⟩
  rw [value, hx, hregular.unpack_pack s]
  cases s <;> simp [Sign.apply, hb]

theorem unpack_pack_zero (s : Sign) : (Float.Model.pack (.zero s)).unpack = .zero s := by
  cases s <;> rfl

theorem value_of_zero {x : Float} {s : Sign} (hx : x.toModel.unpack = .zero s) : value x = 0 := by
  rw [value, hx]

theorem value_of_finite {x : Float} {s : Sign} {m : ℕ} {e : ℤ} {hp : 0 < m}
    (hx : x.toModel.unpack = .finite s m e hp) : value x = s.apply m * 2 ^ e := by
  rw [value, hx]

theorem whole_of_zero {x : Float} {s : Sign} (hx : x.toModel.unpack = .zero s) : Whole x 0 := by
  have hfin : x.isFinite = x.toModel.unpack.isFinite := rfl
  refine ⟨?_, (value_of_zero hx).trans Int.cast_zero.symm⟩
  rw [hfin, hx]
  rfl

/-- A whole double is a zero, or has 53 digits. -/
theorem Whole.unpack {x : Float} {n : ℤ} (h : Whole x n) :
    (n = 0 ∧ ∃ s, x.toModel.unpack = .zero s) ∨
      ∃ s m e hp, x.toModel.unpack = .finite s m e hp ∧ 2 ^ 52 ≤ m ∧
        ∃ a : ℕ, a ≠ 0 ∧ n = s.apply a ∧ (a : ℚ) = m * 2 ^ e := by
  have hvalue := h.value_eq
  rcases unpack_of_isFinite h.finite with ⟨s, hx⟩ | ⟨s, m, e, hp, hx⟩
  · rw [value_of_zero hx] at hvalue
    exact .inl ⟨by exact_mod_cast hvalue.symm, s, hx⟩
  · right
    have hregular := regular_of_unpack hx
    have hpos : (0 : ℚ) < m * 2 ^ e := by
      have : (0 : ℚ) < m := by exact_mod_cast hp
      positivity
    rw [value_of_finite hx] at hvalue
    obtain ⟨a, hsign, ha⟩ : ∃ a : ℕ, n = s.apply a ∧ (a : ℚ) = m * 2 ^ e := by
      cases s with
      | positive =>
        have hn : (n : ℚ) = m * 2 ^ e := hvalue.symm
        have hnonneg : 0 ≤ n := by exact_mod_cast hn ▸ hpos.le
        refine ⟨n.toNat, (Int.toNat_of_nonneg hnonneg).symm, ?_⟩
        rw [← hn]
        exact_mod_cast Int.toNat_of_nonneg hnonneg
      | negative =>
        have hn : ((-n : ℤ) : ℚ) = m * 2 ^ e := by
          rw [Int.cast_neg, ← hvalue]
          simp [Sign.apply]
        have hnonneg : 0 ≤ -n := by exact_mod_cast hn ▸ hpos.le
        refine ⟨(-n).toNat, ?_, ?_⟩
        · simp only [Sign.apply]
          omega
        · rw [← hn]
          exact_mod_cast Int.toNat_of_nonneg hnonneg
    have ha0 : a ≠ 0 := by
      rintro rfl
      exact hpos.ne (by exact_mod_cast ha)
    refine ⟨s, m, e, hp, hx, hregular.full.resolve_right fun he => ?_, a, ha0, hsign, ha⟩
    -- with the smallest exponent, 53 digits do not reach the point
    obtain ⟨hlog, -⟩ := log2_add_nonneg ha ha0
    have := (Nat.log2_lt hp.ne').2 hregular.lt
    omega

theorem apply_mul_apply (s t : Sign) (a b : ℤ) : s.apply a * t.apply b = (s * t).apply (a * b) := by
  cases s <;> cases t
  · exact neg_mul_neg a b
  · exact neg_mul a b
  · exact mul_neg a b
  · rfl

/-- Products of whole doubles are rounded products. -/
theorem Whole.mul {x y : Float} {a b : ℤ} (hx : Whole x a) (hy : Whole y b)
    (hfin : (x * y).isFinite) : ∃ c, Rounded (a * b) c ∧ Whole (x * y) c := by
  have hmodel : (x * y).toModel = Float.Model.pack
      (UnpackedFloat.mul Format.binary64 x.toModel.unpack y.toModel.unpack) := rfl
  have hzero : ∀ s : Sign, UnpackedFloat.mul Format.binary64 x.toModel.unpack y.toModel.unpack =
      .zero s → Whole (x * y) 0 := by
    intro s hs
    refine whole_of_zero (s := s) ?_
    rw [hmodel, hs, unpack_pack_zero]
  rcases hx.unpack with ⟨rfl, s, hu⟩ | ⟨s, m, e, hp, hu, hm, a', ha0, rfl, ha⟩ <;>
    rcases hy.unpack with ⟨rfl, t, hv⟩ | ⟨t, k, f, hq, hv, hk, b', hb0, rfl, hb⟩
  · exact ⟨0, by rw [mul_zero]; exact .refl 0, hzero (s * t) (by rw [hu, hv]; rfl)⟩
  · exact ⟨0, by rw [zero_mul]; exact .refl 0, hzero (s * t) (by rw [hu, hv]; rfl)⟩
  · exact ⟨0, by rw [mul_zero]; exact .refl 0, hzero (s * t) (by rw [hu, hv]; rfl)⟩
  · have hprod : ((a' * b' : ℕ) : ℚ) = ((m * k : ℕ) : ℚ) * 2 ^ (e + f) := by
      push_cast
      rw [ha, hb, zpow_add₀ two_ne_zero]
      ring
    have hlong : 2 ^ 52 ≤ m * k := hm.trans (Nat.le_mul_of_pos_right m hq)
    obtain ⟨c, hc, m', e', hcan, hvalue, hround⟩ :=
      exists_rounded hprod (Nat.mul_ne_zero ha0 hb0) hlong (s * t)
    have hsign : s.apply a' * t.apply b' = (s * t).apply ((a' * b' : ℕ) : ℤ) := by
      rw [apply_mul_apply, Nat.cast_mul]
    refine ⟨(s * t).apply c, by rw [hsign]; exact hc.apply _,
      whole_of_canonical hcan hvalue ?_ hfin⟩
    rw [hmodel, hu, hv]
    exact congrArg Float.Model.pack hround

/-- Digits moved to a smaller exponent. -/
theorem decreaseExponent_value (m : ℕ) {e f : ℤ} (h : f ≤ e) :
    ((decreaseExponent m e f).1 : ℚ) * 2 ^ f = m * 2 ^ e := by
  obtain ⟨j, hj⟩ := Int.eq_ofNat_of_zero_le (show 0 ≤ e - f by omega)
  have he : (2 : ℚ) ^ e = 2 ^ j * 2 ^ f := by
    rw [← zpow_natCast, ← zpow_add₀ two_ne_zero]
    congr 1
    omega
  rw [decreaseExponent, hj, Int.toNat_natCast, Nat.shiftLeft_eq, he]
  push_cast
  ring

/-- The same of digits with a sign. -/
theorem cast_apply {s : Sign} {a m : ℕ} {e f : ℤ} (h : f ≤ e) (ha : (a : ℚ) = m * 2 ^ e) :
    ((s.apply a : ℤ) : ℚ) = (s.apply (decreaseExponent m e f).1 : ℤ) * 2 ^ f := by
  rw [← decreaseExponent_value m h] at ha
  cases s with
  | positive => exact ha
  | negative =>
    simp only [Sign.apply]
    push_cast
    rw [ha, neg_mul]

theorem cast_toNat {z : ℤ} (h : 0 ≤ z) : ((z.toNat : ℕ) : ℚ) = z := by
  exact_mod_cast Int.toNat_of_nonneg h

/-- A whole number given by digits with a sign is rounded. -/
theorem exists_whole_normalize {x : Float} {c d : ℤ} {e : ℤ} (hc : (c : ℚ) = d * 2 ^ e)
    (hx : x.toModel = Float.Model.pack (UnpackedFloat.normalize Format.binary64 d e .positive))
    (hfin : x.isFinite) : ∃ b, Rounded c b ∧ Whole x b := by
  have hpos : (0 : ℚ) < 2 ^ e := zpow_pos two_pos e
  rcases lt_trichotomy d 0 with hd | rfl | hd
  · have hneg : c < 0 := by
      have hq : (c : ℚ) < 0 := hc ▸ mul_neg_of_neg_of_pos (Int.cast_lt_zero.2 hd) hpos
      exact_mod_cast hq
    have habs : (((-c).toNat : ℕ) : ℚ) = ((-d).toNat : ℕ) * 2 ^ e := by
      rw [cast_toNat (by omega), cast_toNat (by omega), Int.cast_neg, Int.cast_neg, hc, neg_mul]
    obtain ⟨b, hb, m', e', hcan, hvalue, hround⟩ := exists_round habs (by omega) .negative
    have hsign : Sign.negative.apply ((-c).toNat : ℤ) = c := by
      simp only [Sign.apply]
      omega
    have hcompare : compare d 0 = .lt := Int.compare_eq_lt.2 hd
    refine ⟨Sign.negative.apply b, ?_, whole_of_canonical hcan hvalue ?_ hfin⟩
    · have happly := hb.apply .negative
      rwa [hsign] at happly
    · rw [hx, UnpackedFloat.normalize, hcompare]
      exact congrArg Float.Model.pack hround
  · have hzero : c = 0 := by
      rw [Int.cast_zero, zero_mul] at hc
      exact_mod_cast hc
    rw [hzero]
    have hcompare : compare (0 : ℤ) 0 = .eq := Int.compare_eq_eq.2 rfl
    refine ⟨0, .refl 0, whole_of_zero (s := .positive) ?_⟩
    rw [hx, UnpackedFloat.normalize, hcompare]
    exact unpack_pack_zero .positive
  · have hplus : 0 < c := by
      have hq : (0 : ℚ) < c := hc ▸ mul_pos (Int.cast_pos.2 hd) hpos
      exact_mod_cast hq
    have habs : ((c.toNat : ℕ) : ℚ) = (d.toNat : ℕ) * 2 ^ e := by
      rw [cast_toNat hplus.le, cast_toNat hd.le, hc]
    obtain ⟨b, hb, m', e', hcan, hvalue, hround⟩ := exists_round habs (by omega) .positive
    have hcompare : compare d 0 = .gt := Int.compare_eq_gt.2 hd
    rw [Int.toNat_of_nonneg hplus.le] at hb
    refine ⟨b, hb, whole_of_canonical (s := .positive) hcan hvalue ?_ hfin⟩
    rw [hx, UnpackedFloat.normalize, hcompare]
    exact congrArg Float.Model.pack hround

/-- Sums of whole doubles are rounded sums. -/
theorem Whole.add {x y : Float} {a b : ℤ} (hx : Whole x a) (hy : Whole y b)
    (hfin : (x + y).isFinite) : ∃ c, Rounded (a + b) c ∧ Whole (x + y) c := by
  have hmodel : (x + y).toModel = Float.Model.pack
      (UnpackedFloat.add Format.binary64 x.toModel.unpack y.toModel.unpack) := rfl
  have hback : ∀ z : Float, UnpackedFloat.add Format.binary64 x.toModel.unpack y.toModel.unpack =
      z.toModel.unpack → x + y = z := by
    intro z hz
    have hsum : x + y = Float.ofModel (Float.Model.pack z.toModel.unpack) := by
      rw [← hz]
      rfl
    rw [hsum, ofModel_pack_unpack]
  rcases hx.unpack with ⟨rfl, s, hu⟩ | ⟨s, m, e, hp, hu, -, a', -, rfl, ha⟩ <;>
    rcases hy.unpack with ⟨rfl, t, hv⟩ | ⟨t, k, f, hq, hv, -, b', -, rfl, hb⟩
  · refine ⟨0, .refl 0, whole_of_zero (s := if s == t then s else .positive) ?_⟩
    rw [hmodel, hu, hv]
    cases s <;> cases t <;> rfl
  · have hsame : x + y = y := hback y (by rw [hu, hv]; rfl)
    rw [Int.zero_add, hsame]
    exact ⟨_, .refl _, hy⟩
  · have hsame : x + y = x := hback x (by rw [hu, hv]; rfl)
    rw [Int.add_zero, hsame]
    exact ⟨_, .refl _, hx⟩
  · have hsum : ((s.apply a' + t.apply b' : ℤ) : ℚ) =
        ((s.apply (decreaseExponent m e (min e f)).1 + t.apply (decreaseExponent k f (min e f)).1 :
          ℤ) : ℚ) * 2 ^ min e f := by
      rw [Int.cast_add, Int.cast_add, add_mul, ← cast_apply (min_le_left e f) ha,
        ← cast_apply (min_le_right e f) hb]
    refine exists_whole_normalize hsum ?_ hfin
    rw [hmodel, hu, hv]
    rfl

/-- A sum is finite only if its parts are. -/
theorem isFinite_of_add {x y : Float} (h : (x + y).isFinite) : x.isFinite ∧ y.isFinite := by
  have hnan : ¬ (Float.Model.pack .notANumber).unpack.isFinite := Bool.false_ne_true
  have hinf : ∀ s, ¬ (Float.Model.pack (.infinity s)).unpack.isFinite := fun s => by
    cases s <;> exact Bool.false_ne_true
  have hparts : ∀ u v : UnpackedFloat,
      (Float.Model.pack (u.add Format.binary64 v)).unpack.isFinite → u.isFinite ∧ v.isFinite := by
    intro u v h
    cases u with
    | notANumber => exact absurd h hnan
    | infinity s =>
      cases v with
      | notANumber => exact absurd h hnan
      | infinity t =>
        rw [UnpackedFloat.add] at h
        split at h
        · exact absurd h (hinf s)
        · exact absurd h hnan
      | zero t => exact absurd h (hinf s)
      | finite t m e hp => exact absurd h (hinf s)
    | zero s =>
      cases v with
      | notANumber => exact absurd h hnan
      | infinity t => exact absurd h (hinf t)
      | zero t => exact ⟨rfl, rfl⟩
      | finite t m e hp => exact ⟨rfl, rfl⟩
    | finite s m e hp =>
      cases v with
      | notANumber => exact absurd h hnan
      | infinity t => exact absurd h (hinf t)
      | zero t => exact ⟨rfl, rfl⟩
      | finite t k f hq => exact ⟨rfl, rfl⟩
  exact hparts x.toModel.unpack y.toModel.unpack h

theorem ne_neg_zero_iff {x : Float} : x ≠ -0 ↔ x.toModel.unpack ≠ .zero .negative :=
  not_congr ⟨fun h => h ▸ rfl, fun h => eq_of_unpack_eq h⟩

/-- Digits that cancel out leave a zero with a plus. -/
theorem unpack_normalize_ne {e : ℤ} (he : -1074 ≤ e) (d : ℤ) :
    (Float.Model.pack (UnpackedFloat.normalize Format.binary64 d e .positive)).unpack ≠
      .zero .negative := by
  rw [UnpackedFloat.normalize]
  split
  · next hd =>
    have hne : (-d).toNat ≠ 0 := by
      have := Int.compare_eq_lt.1 hd
      omega
    obtain ⟨m, f, hcan, hround⟩ := exists_round_canonical hne he .negative
    rw [hround]
    exact unpack_pack_ne_zero hcan _ _
  · intro hzero
    cases hzero
  · next hd =>
    have hne : d.toNat ≠ 0 := by
      have := Int.compare_eq_gt.1 hd
      omega
    obtain ⟨m, f, hcan, hround⟩ := exists_round_canonical hne he .positive
    rw [hround]
    exact unpack_pack_ne_zero hcan _ _

/-- A sum is minus zero only if both of its parts are. -/
theorem add_ne_neg_zero {x : Float} (hx : x ≠ -0) (y : Float) : x + y ≠ -0 := by
  intro hsum
  have hfin : (x + y).isFinite := by
    rw [hsum]
    decide
  obtain ⟨hxfin, hyfin⟩ := isFinite_of_add hfin
  have hmodel : (x + y).toModel.unpack = (Float.Model.pack
      (UnpackedFloat.add Format.binary64 x.toModel.unpack y.toModel.unpack)).unpack := rfl
  refine ne_neg_zero_iff.2 ?_ hsum
  rw [ne_neg_zero_iff] at hx
  rw [hmodel]
  rcases unpack_of_isFinite hxfin with ⟨s, hu⟩ | ⟨s, m, e, hp, hu⟩ <;>
    rcases unpack_of_isFinite hyfin with ⟨t, hv⟩ | ⟨t, k, f, hq, hv⟩
  · rw [hu] at hx ⊢
    rw [hv]
    cases s with
    | negative => exact absurd rfl hx
    | positive => cases t <;> exact nofun
  · rw [hu, hv]
    exact unpack_pack_ne_zero (regular_of_unpack hv).toCanonical t .negative
  · rw [hu, hv]
    exact unpack_pack_ne_zero (regular_of_unpack hu).toCanonical s .negative
  · rw [hu, hv]
    exact unpack_normalize_ne (le_min (regular_of_unpack hu).low (regular_of_unpack hv).low) _

theorem Whole.neg {x : Float} {n : ℤ} (h : Whole x n) : Whole (-x) (-n) := by
  refine ⟨isFinite_neg h.finite, ?_⟩
  have hvalue := h.value_eq
  rcases unpack_of_isFinite h.finite with ⟨s, hx⟩ | ⟨s, m, e, hp, hx⟩
  · have hneg : (-x).toModel.unpack = .zero (-s) := by rw [unpack_neg, hx]; rfl
    rw [value_of_zero hneg, Int.cast_neg, ← hvalue, value_of_zero hx, neg_zero]
  · have hneg : (-x).toModel.unpack = .finite (-s) m e hp := by rw [unpack_neg, hx]; rfl
    rw [value_of_finite hneg, Int.cast_neg, ← hvalue, value_of_finite hx, ← neg_mul, ← Int.cast_neg]
    cases s with
    | positive => rfl
    | negative => exact congrArg (fun k : ℤ => (k : ℚ) * 2 ^ e) (Int.neg_neg m).symm

/-! ## Conversions -/

/-- The double of a natural number is the number, rounded. -/
theorem exists_whole_ofNat {n : ℕ} (hfin : (Float.ofNat n).isFinite) :
    ∃ b, Rounded n b ∧ Whole (Float.ofNat n) b := by
  rcases Nat.lt_or_ge n (2 ^ 53) with hlt | hle
  · exact ⟨n, .refl _, hfin, by exact_mod_cast value_ofNat hlt.le⟩
  · have hscale : (n : ℚ) = ((n * 2 ^ 53 : ℕ) : ℚ) * 2 ^ (-53 : ℤ) := by
      rw [show (-53 : ℤ) = -((53 : ℕ) : ℤ) from rfl, zpow_neg, zpow_natCast]
      push_cast
      field_simp
      norm_num
    obtain ⟨b, hb, m, e, hcan, hvalue, hround⟩ :=
      exists_rounded hscale (by omega) (by omega) .positive
    refine ⟨b, hb, whole_of_canonical (s := .positive) hcan hvalue ?_ hfin⟩
    rw [ofNat_long hle, hround]

theorem whole_toFloat {n : ℕ} (h : n < 2 ^ 53) : Whole n.toUInt64.toFloat n := by
  by_cases hn : n = 0
  · subst hn
    exact whole_of_zero (s := .positive) rfl
  · obtain ⟨hp, hu⟩ := unpack_toFloat hn h
    have hfin : n.toUInt64.toFloat.isFinite = n.toUInt64.toFloat.toModel.unpack.isFinite := rfl
    refine ⟨by rw [hfin, hu]; rfl, ?_⟩
    rw [value_of_finite hu]
    exact digits_mul_zpow hn h

theorem nearest_lt {m d : ℕ} (hm : m < 2 ^ 53) (hd : 0 < d) :
    Rounding.nearest.apply m d < 2 ^ 53 := by
  rw [Rounding.apply, Nat.div_lt_iff_lt_mul (by omega)]
  omega

/-- Making a double whole gives a whole number. -/
theorem exists_whole_round {x : Float} (h : x.isFinite) : ∃ n, Whole (round x) n := by
  rcases unpack_of_isFinite h with ⟨s, hx⟩ | ⟨s, m, e, hp, hx⟩
  · have hround : round x = x := by
      rw [round, whole, hx]
    rw [hround]
    exact ⟨0, whole_of_zero hx⟩
  · rcases le_or_gt 0 e with he | he
    · have hround : round x = x := by
        rw [round, whole, hx]
        simp only [he, ↓reduceIte]
      obtain ⟨j, rfl⟩ := Int.eq_ofNat_of_zero_le he
      rw [hround]
      refine ⟨s.apply (m * 2 ^ j : ℕ), h, ?_⟩
      rw [value_of_finite hx, zpow_natCast]
      cases s <;> simp [Sign.apply]
    · have hwhole := whole_toFloat
        (nearest_lt (regular_of_unpack hx).lt (Nat.two_pow_pos (-e).toNat))
      unfold round whole
      rw [hx]
      simp only [not_le.2 he, ↓reduceIte]
      cases s with
      | positive => exact ⟨_, hwhole⟩
      | negative => exact ⟨_, hwhole.neg⟩

/-- What rounding makes finite it makes whole. -/
theorem exists_whole_of_round {x : Float} (h : (round x).isFinite) : ∃ n, Whole (round x) n := by
  refine exists_whole_round ?_
  have hx : x.isFinite = x.toModel.unpack.isFinite := rfl
  unfold round whole at h
  split at h
  · next hfinite =>
    rw [hx, hfinite]
    rfl
  · exact h

/-- The whole number nearest to a whole double. -/
theorem Whole.nearest?_eq {x : Float} {n : ℤ} (h : Whole x n) : nearest? x = some n := by
  rcases h.unpack with ⟨rfl, s, hx⟩ | ⟨s, m, e, hp, hx, -, a, -, rfl, ha⟩
  · rw [nearest?, hx]
  · have hn : Rounding.nearest.apply (m * Nat.pow 2 e.toNat) (Nat.pow 2 (-e).toNat) = a := by
      have hd : 0 < Nat.pow 2 (-e).toNat := Nat.two_pow_pos _
      have hmul : m * Nat.pow 2 e.toNat = a * Nat.pow 2 (-e).toNat := by
        have hq : (m : ℚ) * 2 ^ e.toNat = a * 2 ^ (-e).toNat := by
          have hexp : (e.toNat : ℤ) = e + (-e).toNat := by omega
          rw [ha, mul_assoc, ← zpow_natCast, hexp, zpow_add₀ two_ne_zero, zpow_natCast]
        exact_mod_cast hq
      rw [hmul, Rounding.apply]
      generalize Nat.pow 2 (-e).toNat = d at hd
      have hsplit : 2 * (a * d) + d = d + 2 * d * a := by ring
      rw [hsplit, Nat.add_mul_div_left _ _ (by omega), Nat.div_eq_of_lt (by omega), Nat.zero_add]
    rw [nearest?, hx]
    exact congrArg (fun k : ℕ => some (s.apply k)) hn

theorem isFinite_of_nearest? {x : Float} {n : ℤ} (h : nearest? x = some n) : x.isFinite := by
  have hx : x.isFinite = x.toModel.unpack.isFinite := rfl
  unfold nearest? at h
  rw [hx]
  split at h
  · next hu => rw [hu]; rfl
  · next hu => rw [hu]; rfl
  · cases h

end WorstCase.Double
