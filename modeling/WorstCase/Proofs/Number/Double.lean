import Mathlib
import WorstCase.Number.Scalar

/-!
# The value of a double

A finite double stands for a rational (`Double.value`). Natural numbers up to `2 ^ 53`, and their
negatives, are doubles, so that turning them into doubles loses nothing (`value_ofNat`,
`value_neg_ofNat`): their significant digits, moved to 53 places, are kept by rounding
(`Canonical.roundWithAccuracy_eq`) and by the packed form (`Regular.unpack_pack`).
-/

namespace WorstCase.Double

open Float.Model Float.Model.UnpackedFloat

/-- The rational that a finite double stands for; infinities and what is no number count as zero. -/
def value (x : Float) : ℚ :=
  match x.toModel.unpack with
  | .finite s m e _ => s.apply m * (2 : ℚ) ^ e
  | .infinity _ | .notANumber | .zero _ => 0

/-! ## Regular numbers -/

/-- Digits and an exponent as rounding leaves them: 53 digits, the first of which is zero only if
the exponent is the smallest. -/
structure Canonical (m : Nat) (e : Int) : Prop where
  pos : 0 < m
  lt : m < 2 ^ 53
  low : -1074 ≤ e
  full : 2 ^ 52 ≤ m ∨ e = -1074

/-- The digits and the exponent of a finite double that is not zero. -/
structure Regular (m : Nat) (e : Int) : Prop extends Canonical m e where
  high : e ≤ 971

theorem regular_of_unpack {x : Float} {s : Sign} {m : Nat} {e : Int} {hp : 0 < m}
    (h : x.toModel.unpack = .finite s m e hp) : Regular m e := by
  have happend : ∀ v : BitVec 52, (1#1 ++ v).toNat = 2 ^ 52 + v.toNat := fun v => by
    rw [BitVec.toNat_append, ← Nat.shiftLeft_add_eq_or_of_lt v.isLt]
    rfl
  have hbias : (Format.binary64.exponentBias : Int) = 1023 := rfl
  have hv : (@unpackMantissa Format.binary64 x.toModel.toBits.toBitVec).toNat < 2 ^ 52 :=
    BitVec.isLt _
  have hw : (@unpackExponent Format.binary64 x.toModel.toBits.toBitVec).toNat < 2 ^ 11 :=
    BitVec.isLt _
  simp only [Float.Model.unpack, UnpackedFloat.unpack] at h
  split at h
  · split at h <;> cases h
  · next hones =>
    have hones' : (@unpackExponent Format.binary64 x.toModel.toBits.toBitVec).toNat ≠ 2047 :=
      fun hw => hones (BitVec.toNat_inj.1 hw)
    split at h
    · next hzero =>
      split at h
      · cases h
      · simp only [finite.injEq, hzero, hbias, BitVec.toNat_zero] at h
        obtain ⟨-, rfl, rfl⟩ := h
        exact ⟨⟨hp, by omega, by omega, by omega⟩, by omega⟩
    · next hzero =>
      have hzero' : (@unpackExponent Format.binary64 x.toModel.toBits.toBitVec).toNat ≠ 0 :=
        fun hw => hzero (BitVec.toNat_inj.1 hw)
      simp only [finite.injEq, happend, hbias] at h
      obtain ⟨-, rfl, rfl⟩ := h
      exact ⟨⟨hp, by omega, by omega, by omega⟩, by omega⟩

/-! ## Rounding keeps canonical numbers -/

/-- Digits that are all zero can be shifted out without a rest. -/
theorem shiftRight_shifted (m j : Nat) :
    (⟨m * 2 ^ j, false, false⟩ : ExtendedMantissa) >>> j = ⟨m, false, false⟩ := by
  have hrep : ∀ (i k : Nat), Nat.repeat ExtendedMantissa.shiftRightOne i
      ⟨k * 2 ^ i, false, false⟩ = ⟨k, false, false⟩ := by
    intro i
    induction i with
    | zero => intro k; simp only [Nat.repeat, Nat.pow_zero, Nat.mul_one]
    | succ i ih =>
      intro k
      have hk : k * 2 ^ (i + 1) = (2 * k) * 2 ^ i := by rw [Nat.pow_succ]; ac_rfl
      rw [Nat.repeat, hk, ih (2 * k)]
      simp only [ExtendedMantissa.shiftRightOne, Nat.mul_mod_right, Bool.or_self, bne_self_eq_false,
        ExtendedMantissa.mk.injEq, and_true]
      omega
  exact hrep j m

theorem log2_shifted {m : Nat} (hm : m ≠ 0) (j : Nat) : (m * 2 ^ j).log2 = m.log2 + j := by
  have hpos : 0 < 2 ^ j := Nat.two_pow_pos j
  have hne : m * 2 ^ j ≠ 0 := Nat.mul_ne_zero hm hpos.ne'
  refine Nat.le_antisymm (Nat.lt_succ_iff.1 ((Nat.log2_lt hne).2 ?_)) ((Nat.le_log2 hne).2 ?_)
  · rw [Nat.succ_eq_add_one, Nat.add_right_comm, Nat.pow_add]
    exact Nat.mul_lt_mul_of_pos_right Nat.lt_log2_self hpos
  · rw [Nat.pow_add]
    exact Nat.mul_le_mul_right _ (Nat.log2_self_le hm)

namespace Canonical

variable {m : Nat} {e : Int}

/-- Rounding aims at the exponent that the number has. -/
theorem targetExponent_eq (h : Canonical m e) (j : Nat) :
    Format.binary64.targetExponent (totalExponent (m * 2 ^ j) (e - j)) = e := by
  have hlog : m.log2 < 53 := (Nat.log2_lt h.pos.ne').2 h.lt
  have hfull : 52 ≤ m.log2 ∨ e = -1074 := h.full.imp_left (Nat.le_log2 h.pos.ne').2
  have hlow := h.low
  simp only [Format.targetExponent, totalExponent, log2_shifted h.pos.ne', Format.mantissaBits,
    Format.minExponent]
  omega

theorem shiftToTargetExponent_eq (h : Canonical m e) (j : Nat) :
    shiftToTargetExponent Format.binary64 (m * 2 ^ j) (e - j) .exact = (⟨m, false, false⟩, e) := by
  simp only [shiftToTargetExponent, h.targetExponent_eq, shiftToExponent,
    ExtendedMantissa.ofMantissaAndAccuracy]
  have hj : (e - (e - (j : Int))).toNat = j := by omega
  rw [hj, shiftRight_shifted, Int.sub_add_cancel]

/-- A canonical number with zeros after its digits is rounded to itself. -/
theorem roundWithAccuracy_eq (h : Canonical m e) (s : Sign) (j : Nat) :
    roundWithAccuracy Format.binary64 s (m * 2 ^ j) (e - j) .exact = .finite s m e h.pos := by
  have hm : (⟨m, false, false⟩ : ExtendedMantissa).roundedMantissa = m := rfl
  have hagain := h.shiftToTargetExponent_eq 0
  rw [Nat.pow_zero, Nat.mul_one, Int.ofNat_zero, Int.sub_zero] at hagain
  rw [roundWithAccuracy, h.shiftToTargetExponent_eq j]
  simp only [hm, hagain, h.pos.ne', ↓reduceDIte]

end Canonical

/-! ## The packed form -/

namespace Regular

variable {m : Nat} {e : Int}

/-- The packed form of a number whose first digit is not zero does not store that digit. -/
theorem unpack_pack_full (h : Regular m e) (hlo : 2 ^ 52 ≤ m) (s : Sign) :
    (Float.Model.pack (.finite s m e h.pos)).unpack = .finite s m e h.pos := by
  have hlog : m.log2 + 1 = Format.binary64.mantissaBits :=
    congrArg (· + 1) ((Nat.log2_eq_iff h.pos.ne').2 ⟨hlo, h.lt⟩)
  have hhi := h.lt
  have hlow := h.low
  have hhigh := h.high
  obtain ⟨b, hb⟩ := Int.eq_ofNat_of_zero_le (show 0 ≤ e + 1075 by omega)
  have hbias : (e + Format.binary64.exponentBias + (52 : Nat)).toNat = b := by
    simp only [Format.exponentBias]
    omega
  have hsmall : ¬ 2 ^ 11 ≤ b + 1 := by omega
  have hbits : (BitVec.ofNat 11 b).toNat = b := by
    rw [BitVec.toNat_ofNat, Nat.mod_eq_of_lt (by omega)]
  have hzero : BitVec.ofNat 11 b ≠ 0#11 := fun h => by
    have := congrArg BitVec.toNat h
    rw [hbits] at this
    simp only [BitVec.toNat_ofNat, Nat.zero_mod] at this
    omega
  have hones : BitVec.ofNat 11 b ≠ -1#11 := fun h => by
    have := congrArg BitVec.toNat h
    rw [hbits] at this
    simp only [BitVec.reduceNeg, BitVec.reduceToNat] at this
    omega
  have hmant : (1#1 ++ BitVec.ofNat 52 m).toNat = m := by
    rw [BitVec.toNat_append, ← Nat.shiftLeft_add_eq_or_of_lt (BitVec.isLt _)]
    simp only [BitVec.toNat_ofNat, Nat.shiftLeft_eq]
    omega
  have hpack : UnpackedFloat.pack Format.binary64 (.finite s m e h.pos) =
      packComponents Format.binary64 s (BitVec.ofNat 11 b) (BitVec.ofNat 52 m) := by
    simp only [UnpackedFloat.pack, hbias, hsmall, hlog, ↓reduceIte]
  have hunpack : (Float.Model.pack (.finite s m e h.pos)).unpack =
      UnpackedFloat.unpack Format.binary64
        (UnpackedFloat.pack Format.binary64 (.finite s m e h.pos)) := rfl
  rw [hunpack, hpack]
  simp only [UnpackedFloat.unpack, unpackMantissa_packComponents, unpackExponent_packComponents,
    unpackSign_packComponents, Sign.ofBitVec_toBitVec, hones, hzero, ↓reduceIte, hbits, hmant,
    Format.exponentBias, finite.injEq, true_and]
  omega

/-- Smaller numbers are packed with all their digits and no exponent. -/
theorem unpack_pack_small (hp : 0 < m) (hlt : m < 2 ^ 52) (s : Sign) :
    (Float.Model.pack (.finite s m (-1074) hp)).unpack = .finite s m (-1074) hp := by
  have hlog : m.log2 + 1 ≠ Format.binary64.mantissaBits := fun hm => by
    have := (Nat.log2_lt hp.ne').2 hlt
    simp only [Format.mantissaBits] at hm
    omega
  have hbias : ((-1074 : Int) + Format.binary64.exponentBias + (52 : Nat)).toNat = 1 := rfl
  have hmant : (BitVec.ofNat 52 m).toNat = m := by
    rw [BitVec.toNat_ofNat, Nat.mod_eq_of_lt hlt]
  have hzero : BitVec.ofNat 52 m ≠ 0#52 := fun h => by
    have := congrArg BitVec.toNat h
    rw [hmant] at this
    exact hp.ne' this
  have hpack : UnpackedFloat.pack Format.binary64 (.finite s m (-1074) hp) =
      packComponents Format.binary64 s 0#11 (BitVec.ofNat 52 m) := by
    simp only [UnpackedFloat.pack, hbias, hlog, ↓reduceIte]
    rfl
  have hunpack : (Float.Model.pack (.finite s m (-1074) hp)).unpack =
      UnpackedFloat.unpack Format.binary64
        (UnpackedFloat.pack Format.binary64 (.finite s m (-1074) hp)) := rfl
  have hones : 0#11 ≠ -1#11 := by decide
  rw [hunpack, hpack]
  simp only [UnpackedFloat.unpack, unpackMantissa_packComponents, unpackExponent_packComponents,
    unpackSign_packComponents, Sign.ofBitVec_toBitVec, hones, hzero, ↓reduceIte, ↓reduceDIte, hmant]
  rfl

/-- A regular mantissa and exponent survive packing. -/
theorem unpack_pack (h : Regular m e) (s : Sign) :
    (Float.Model.pack (.finite s m e h.pos)).unpack = .finite s m e h.pos := by
  rcases Nat.lt_or_ge m (2 ^ 52) with hlt | hlo
  · obtain rfl := h.full.resolve_left (by omega)
    exact unpack_pack_small h.pos hlt s
  · exact h.unpack_pack_full hlo s

end Regular

/-! ## Natural numbers -/

/-- The 53 digits of a natural number, the first of which is not zero. -/
def digits (n : Nat) : Nat :=
  n * 2 ^ (52 - n.log2)

theorem digits_bounds {n : Nat} (hn : n ≠ 0) (h : n < 2 ^ 53) :
    2 ^ 52 ≤ digits n ∧ digits n < 2 ^ 53 ∧ n.log2 ≤ 52 := by
  have hlog : n.log2 ≤ 52 := Nat.lt_succ_iff.1 ((Nat.log2_lt hn).2 h)
  have hpos : 0 < 2 ^ (52 - n.log2) := Nat.two_pow_pos _
  refine ⟨?_, ?_, hlog⟩
  · calc 2 ^ 52 = 2 ^ n.log2 * 2 ^ (52 - n.log2) := by rw [← Nat.pow_add]; congr 1; omega
      _ ≤ digits n := Nat.mul_le_mul_right _ (Nat.log2_self_le hn)
  · calc digits n < 2 ^ (n.log2 + 1) * 2 ^ (52 - n.log2) :=
          Nat.mul_lt_mul_of_pos_right Nat.lt_log2_self hpos
      _ = 2 ^ 53 := by rw [← Nat.pow_add]; congr 1; omega

theorem regular_digits {n : Nat} (hn : n ≠ 0) (h : n < 2 ^ 53) :
    Regular (digits n) (n.log2 - 52) := by
  obtain ⟨hlo, hhi, hlog⟩ := digits_bounds hn h
  exact ⟨⟨by omega, hhi, by omega, .inl hlo⟩, by omega⟩

/-- A number below `2 ^ 53` is not rounded. -/
theorem round_digits {n : Nat} (hn : n ≠ 0) (h : n < 2 ^ 53) :
    ∃ hp, UnpackedFloat.round Format.binary64 .positive n 0 =
      .finite .positive (digits n) (n.log2 - 52) hp := by
  have htarget : Format.binary64.targetExponent (totalExponent n 0) = (n.log2 : Int) - 52 := by
    simp only [Format.targetExponent, totalExponent, Format.mantissaBits, Format.minExponent]
    omega
  obtain ⟨-, -, hlog⟩ := digits_bounds hn h
  have hshift : (0 - ((n.log2 : Int) - 52)).toNat = 52 - n.log2 := by omega
  have hexp : (0 : Int) - ((52 - n.log2 : Nat) : Int) = (n.log2 : Int) - 52 - (0 : Nat) := by omega
  have hround := (regular_digits hn h).roundWithAccuracy_eq .positive 0
  rw [Nat.pow_zero, Nat.mul_one] at hround
  refine ⟨(regular_digits hn h).pos, ?_⟩
  simp only [UnpackedFloat.round, htarget, decreaseExponent, hshift, Nat.shiftLeft_eq, hexp]
  exact hround

theorem unpack_toFloat {n : Nat} (hn : n ≠ 0) (h : n < 2 ^ 53) :
    ∃ hp, n.toUInt64.toFloat.toModel.unpack =
      .finite .positive (digits n) (n.log2 - 52) hp := by
  obtain ⟨hp, hround⟩ := round_digits hn h
  have hnat : n.toUInt64.toNat = n := by
    rw [Nat.toUInt64_eq, UInt64.toNat_ofNat', Nat.mod_eq_of_lt (by omega)]
  have hmodel : n.toUInt64.toFloat.toModel =
      Float.Model.pack (UnpackedFloat.ofNat Format.binary64 n.toUInt64.toNat) := rfl
  have hcmp : compare (n : Int) 0 = .gt := by
    rw [Int.compare_eq_gt]
    omega
  rw [hmodel, hnat, UnpackedFloat.ofNat, UnpackedFloat.ofInt, UnpackedFloat.normalize, hcmp]
  simp only [Int.toNat_natCast, hround]
  exact ⟨hp, (regular_digits hn h).unpack_pack .positive⟩

theorem unpack_one :
    (Float.ofBits 0x3FF0000000000000).toModel.unpack =
      .finite .positive (2 ^ 52) (-52) (by decide) :=
  rfl

/-- The double of a natural number has the digits of the number. -/
theorem unpack_ofNat {n : Nat} (hn : n ≠ 0) (h : n < 2 ^ 53) :
    ∃ hp, (Float.ofNat n).toModel.unpack =
      .finite .positive (digits n) (n.log2 - 52) hp := by
  obtain ⟨hp, hfloat⟩ := unpack_toFloat hn h
  -- small numbers are multiplied by the power of ten of their exponent, which is one
  have hmul : Float.ofNat n = n.toUInt64.toFloat * Float.ofBits 0x3FF0000000000000 := by
    have hcond : n < 2 ^ 53 ∧ 0 ≤ 22 := ⟨h, by omega⟩
    simp only [Float.ofNat, OfScientific.ofScientific, Float.ofScientific, hcond,
      Bool.false_eq_true, ↓reduceIte]
    rfl
  have hmodel : (n.toUInt64.toFloat * Float.ofBits 0x3FF0000000000000).toModel =
      Float.Model.pack (UnpackedFloat.mul Format.binary64 n.toUInt64.toFloat.toModel.unpack
        (Float.ofBits 0x3FF0000000000000).toModel.unpack) := rfl
  have hsign : Sign.positive * Sign.positive = Sign.positive := rfl
  have hexp : (n.log2 : Int) - 52 + -52 = (n.log2 : Int) - 52 - (52 : Nat) := by omega
  rw [hmul, hmodel, hfloat, unpack_one]
  simp only [UnpackedFloat.mul, hsign, hexp]
  rw [(regular_digits hn h).roundWithAccuracy_eq .positive 52]
  exact ⟨hp, (regular_digits hn h).unpack_pack .positive⟩

/-- The digits of a number, scaled back, are the number. -/
theorem digits_mul_zpow {n : Nat} (hn : n ≠ 0) (h : n < 2 ^ 53) :
    (digits n : ℚ) * 2 ^ ((n.log2 : ℤ) - 52) = n := by
  obtain ⟨-, -, hlog⟩ := digits_bounds hn h
  have hexp : (n.log2 : ℤ) - 52 = -((52 - n.log2 : ℕ) : ℤ) := by omega
  rw [digits, hexp, zpow_neg, zpow_natCast, Nat.cast_mul, Nat.cast_pow, Nat.cast_ofNat]
  field_simp

theorem unpack_ofNat_limit :
    (Float.ofNat (2 ^ 53)).toModel.unpack = .finite .positive (2 ^ 52) 1 (by decide) :=
  rfl

/-- A positive number up to `2 ^ 53` has 53 digits, and its double has the same. -/
theorem exists_unpack_ofNat {n : Nat} (hn : n ≠ 0) (h : n ≤ 2 ^ 53) : ∃ m e hp,
    (Float.ofNat n).toModel.unpack = .finite .positive m e hp ∧ Regular m e ∧
      (m : ℚ) * 2 ^ e = n := by
  rcases Nat.lt_or_eq_of_le h with h | rfl
  · obtain ⟨hp, hu⟩ := unpack_ofNat hn h
    exact ⟨_, _, hp, hu, regular_digits hn h, digits_mul_zpow hn h⟩
  · exact ⟨_, _, _, unpack_ofNat_limit, regular_of_unpack unpack_ofNat_limit, by norm_num⟩

/-- A natural number up to `2 ^ 53` is a double. -/
theorem value_ofNat {n : Nat} (h : n ≤ 2 ^ 53) : value (Float.ofNat n) = n := by
  by_cases hn : n = 0
  · subst hn
    rfl
  · obtain ⟨m, e, hp, hu, -, hm⟩ := exists_unpack_ofNat hn h
    rw [value, hu]
    simp only [Sign.apply, Int.cast_natCast]
    exact hm

theorem value_neg_ofNat {n : Nat} (h : n ≤ 2 ^ 53) : value (-Float.ofNat n) = -n := by
  by_cases hn : n = 0
  · subst hn
    rfl
  · obtain ⟨m, e, hp, hu, hreg, hm⟩ := exists_unpack_ofNat hn h
    have hmodel : (-Float.ofNat n).toModel =
        Float.Model.pack (UnpackedFloat.neg (Float.ofNat n).toModel.unpack) := rfl
    have hsign : -Sign.positive = Sign.negative := rfl
    rw [value, hmodel, hu, UnpackedFloat.neg, hsign, hreg.unpack_pack]
    simp only [Sign.apply, Int.cast_neg, Int.cast_natCast, neg_mul, hm]

end WorstCase.Double
