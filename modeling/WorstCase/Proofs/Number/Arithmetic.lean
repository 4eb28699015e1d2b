import WorstCase.Proofs.Number.Nearest

/-!
# Arithmetic of doubles that loses nothing

Rounding keeps what is a double already, so for finite doubles the units of multiplication and
division, the zero of addition and the sign do what they do for numbers. Zeros keep their signs
apart from one case: adding to zero makes a negative zero positive (`zero_add`).
-/

namespace WorstCase.Double

open Float.Model Float.Model.UnpackedFloat

theorem eq_of_unpack_eq {x y : Float} (h : x.toModel.unpack = y.toModel.unpack) : x = y :=
  Float.toBits_inj.1 (UInt64.toBitVec_inj.1
    ((unpack_inj_of_valid x.toModel.valid y.toModel.valid).1 h))

theorem ofModel_pack_unpack (x : Float) : Float.ofModel (Float.Model.pack x.toModel.unpack) = x :=
  Float.ofBits_toBits x

/-- A finite double is a zero or has digits. -/
theorem unpack_of_isFinite {x : Float} (h : x.isFinite) :
    (∃ s, x.toModel.unpack = .zero s) ∨ ∃ s m e hp, x.toModel.unpack = .finite s m e hp := by
  have hu : x.toModel.unpack.isFinite := h
  cases hx : x.toModel.unpack with
  | infinity s => simp [hx, UnpackedFloat.isFinite] at hu
  | notANumber => simp [hx, UnpackedFloat.isFinite] at hu
  | zero s => exact .inl ⟨s, rfl⟩
  | finite s m e hp => exact .inr ⟨s, m, e, hp, rfl⟩

theorem ne_nan_of_isFinite {x : Float} (h : x.isFinite) : x ≠ Float.nan := by
  rintro rfl
  exact absurd h (by decide)

theorem le_iff {x y : Float} : x ≤ y ↔ x.toModel.unpack.le y.toModel.unpack = true :=
  decide_eq_true_iff

theorem lt_iff {x y : Float} : x < y ↔ x.toModel.unpack.lt y.toModel.unpack = true :=
  decide_eq_true_iff

/-! ## Signs -/

theorem unpack_neg (x : Float) : (-x).toModel.unpack = x.toModel.unpack.neg := by
  have hmodel : (-x).toModel = Float.Model.pack x.toModel.unpack.neg := rfl
  rw [hmodel]
  cases hx : x.toModel.unpack with
  | notANumber => rfl
  | infinity s => cases s <;> rfl
  | zero s => cases s <;> rfl
  | finite s m e hp => exact (regular_of_unpack hx).unpack_pack (-s)

theorem neg_neg (x : Float) : -(-x) = x := by
  apply eq_of_unpack_eq
  rw [unpack_neg, unpack_neg]
  cases x.toModel.unpack with
  | notANumber => rfl
  | infinity s => cases s <;> rfl
  | zero s => cases s <;> rfl
  | finite s m e hp => cases s <;> rfl

theorem isFinite_neg {x : Float} (h : x.isFinite) : (-x).isFinite := by
  have hneg : (-x).isFinite = (-x).toModel.unpack.isFinite := rfl
  rw [hneg, unpack_neg]
  rcases unpack_of_isFinite h with ⟨s, hx⟩ | ⟨s, m, e, hp, hx⟩ <;> rw [hx] <;> rfl

/-! ## Units -/

/-- Dividing by one gives the digits of the number, and at most one zero after them. -/
theorem Regular.exists_divCore {m : Nat} {e : Int} (h : Regular m e) :
    ∃ j : Nat, divCore Format.binary64 m e (2 ^ 52) (-52) = (m * 2 ^ j, e - j, .exact) := by
  have hlog : m.log2 < 53 := (Nat.log2_lt h.pos.ne').2 h.lt
  have hfull : 52 ≤ m.log2 ∨ e = -1074 := h.full.imp_left (Nat.le_log2 h.pos.ne').2
  have hlow := h.low
  obtain ⟨j, htarget⟩ : ∃ j : Nat, min (e - -52) (Format.binary64.targetExponent
      (totalExponent m e - totalExponent (2 ^ 52) (-52))) = e - j := by
    simp only [Format.targetExponent, totalExponent, Nat.log2_two_pow, Format.mantissaBits,
      Format.minExponent]
    exact ⟨(e - max (m.log2 + 1 + e - 1 - 53) (-1074)).toNat, by omega⟩
  have hshift : (e - -52 - (e - (j : Int))).toNat = 52 + j := by omega
  have hdigits : m * 2 ^ (52 + j) = 2 ^ 52 * (m * 2 ^ j) := by rw [Nat.pow_add]; ac_rfl
  refine ⟨j, ?_⟩
  simp only [divCore, htarget, hshift, Nat.shiftLeft_eq, hdigits, accuracyOfFraction,
    Nat.mul_mod_right, ↓reduceIte, Nat.mul_div_cancel_left _ (Nat.two_pow_pos 52)]

section Units

variable {x : Float} (h : x.isFinite)
include h

/-- Rounding keeps the product of a double with a power of two next to one. -/
theorem mul_unit (s : Sign) :
    UnpackedFloat.mul Format.binary64 (.finite s (2 ^ 52) (-52) (by decide)) x.toModel.unpack =
      match s with
      | .positive => x.toModel.unpack
      | .negative => x.toModel.unpack.neg := by
  rcases unpack_of_isFinite h with ⟨s', hx⟩ | ⟨s', m, e, hp, hx⟩
  · rw [hx]
    cases s <;> cases s' <;> rfl
  · have hexp : (-52 : Int) + e = e - (52 : Nat) := by omega
    simp only [hx, UnpackedFloat.mul, hexp, Nat.mul_comm (2 ^ 52) m,
      (regular_of_unpack hx).roundWithAccuracy_eq]
    cases s <;> cases s' <;> rfl

theorem one_mul : 1 * x = x := by
  have hmodel : 1 * x = .ofModel (Float.Model.pack (UnpackedFloat.mul Format.binary64
    (.finite .positive (2 ^ 52) (-52) (by decide)) x.toModel.unpack)) := rfl
  rw [hmodel, mul_unit h, ofModel_pack_unpack]

theorem neg_one_mul : -1 * x = -x := by
  have hmodel : -1 * x = .ofModel (Float.Model.pack (UnpackedFloat.mul Format.binary64
    (.finite .negative (2 ^ 52) (-52) (by decide)) x.toModel.unpack)) := rfl
  rw [hmodel, mul_unit h]
  rfl

theorem sub_zero : x - 0 = x := by
  have hmodel : x - 0 = .ofModel (Float.Model.pack (UnpackedFloat.sub Format.binary64
    x.toModel.unpack (.zero .positive))) := rfl
  have hsub : UnpackedFloat.sub Format.binary64 x.toModel.unpack (.zero .positive) =
      x.toModel.unpack := by
    rcases unpack_of_isFinite h with ⟨s, hx⟩ | ⟨s, m, e, hp, hx⟩ <;> rw [hx]
    · cases s <;> rfl
    · rfl
  rw [hmodel, hsub, ofModel_pack_unpack]

theorem div_one : x / 1 = x := by
  have hmodel : x / 1 = .ofModel (Float.Model.pack (UnpackedFloat.div Format.binary64
    x.toModel.unpack (.finite .positive (2 ^ 52) (-52) (by decide)))) := rfl
  have hdiv : UnpackedFloat.div Format.binary64 x.toModel.unpack
      (.finite .positive (2 ^ 52) (-52) (by decide)) = x.toModel.unpack := by
    rcases unpack_of_isFinite h with ⟨s, hx⟩ | ⟨s, m, e, hp, hx⟩
    · rw [hx]
      cases s <;> rfl
    · have hreg := regular_of_unpack hx
      obtain ⟨j, hcore⟩ := hreg.exists_divCore
      have hsign : s / Sign.positive = s := by cases s <;> rfl
      simp only [hx, UnpackedFloat.div, hcore, hsign, hreg.roundWithAccuracy_eq]
  rw [hmodel, hdiv, ofModel_pack_unpack]

end Units

/-! ## Order -/

/-- Finite doubles compare the other way round when they are swapped. -/
theorem compare_swap {x y : Float} (hx : x.isFinite) (hy : y.isFinite) :
    y.toModel.unpack.compare x.toModel.unpack =
      (x.toModel.unpack.compare y.toModel.unpack).map Ordering.swap := by
  have hdigits : ∀ (e₁ e₂ : Int) (m₁ m₂ : Nat), (Ord.compare e₂ e₁).then (Ord.compare m₂ m₁) =
      ((Ord.compare e₁ e₂).then (Ord.compare m₁ m₂)).swap := by
    intro e₁ e₂ m₁ m₂
    rw [Ordering.swap_then, Int.compare_swap, Nat.compare_swap]
  rcases unpack_of_isFinite hx with ⟨s, hx⟩ | ⟨s, m, e, hp, hx⟩ <;>
    rcases unpack_of_isFinite hy with ⟨s', hy⟩ | ⟨s', m', e', hp', hy⟩ <;> rw [hx, hy]
  · rfl
  · cases s' <;> rfl
  · cases s <;> rfl
  · cases s with
    | positive =>
      cases s' with
      | positive => exact congrArg some (hdigits e e' m m')
      | negative => rfl
    | negative =>
      cases s' with
      | positive => rfl
      | negative => exact congrArg some (congrArg Ordering.swap (hdigits e e' m m'))

theorem not_lt_of_le {x y : Float} (hx : x.isFinite) (hy : y.isFinite) (h : x ≤ y) : ¬ y < x := by
  rw [le_iff, UnpackedFloat.le] at h
  rw [lt_iff, UnpackedFloat.lt, compare_swap hx hy]
  cases hc : x.toModel.unpack.compare y.toModel.unpack with
  | none => simp
  | some o =>
    rw [hc] at h
    cases o <;> simp_all

theorem compare_ne_none {x y : Float} (hx : x.isFinite) (hy : y.isFinite) :
    x.toModel.unpack.compare y.toModel.unpack ≠ none := by
  rcases unpack_of_isFinite hx with ⟨s, hx⟩ | ⟨s, m, e, hp, hx⟩ <;>
    rcases unpack_of_isFinite hy with ⟨s', hy⟩ | ⟨s', m', e', hp', hy⟩ <;> rw [hx, hy] <;>
    cases s <;> cases s' <;> exact Option.some_ne_none _

theorem le_of_not_lt {x y : Float} (hx : x.isFinite) (hy : y.isFinite) (h : ¬ y < x) : x ≤ y := by
  rw [lt_iff, UnpackedFloat.lt, compare_swap hx hy] at h
  rw [le_iff, UnpackedFloat.le]
  cases hc : x.toModel.unpack.compare y.toModel.unpack with
  | none => exact absurd hc (compare_ne_none hx hy)
  | some o =>
    rw [hc] at h
    cases o <;> simp_all

/-! ## Zeros -/

/-- The double, with a plus if it is a zero. -/
def plain (x : Float) : Float :=
  if x == 0 then 0 else x

/-- Adding zero loses the sign of a negative zero. -/
theorem zero_add {x : Float} (h : x.isFinite) : 0 + x = plain x := by
  have hmodel : 0 + x = .ofModel (Float.Model.pack (UnpackedFloat.add Format.binary64
    (.zero .positive) x.toModel.unpack)) := rfl
  have hbeq : (x == 0) = x.toModel.unpack.beq (.zero .positive) := rfl
  rw [hmodel, plain, hbeq]
  rcases unpack_of_isFinite h with ⟨s, hx⟩ | ⟨s, m, e, hp, hx⟩
  · rw [hx]
    cases s <;> rfl
  · have hadd : UnpackedFloat.add Format.binary64 (.zero .positive) (.finite s m e hp) =
        .finite s m e hp := rfl
    have hne : UnpackedFloat.beq (.finite s m e hp) (.zero .positive) = false := by
      cases s <;> rfl
    rw [hx, hadd, hne, ← hx, ofModel_pack_unpack]
    rfl

/-- Both zeros are equal to zero. -/
theorem beq_zero_iff {x : Float} : x == 0 ↔ x = 0 ∨ x = -0 := by
  rw [Float.beq_iff_ne_nan_and_eq]
  constructor
  · rintro ⟨-, -, h | ⟨h, -⟩ | ⟨h, -⟩⟩
    · exact .inl h
    · exact .inl h
    · exact .inr h
  · rintro (rfl | rfl)
    · exact ⟨by decide, by decide, .inl rfl⟩
    · exact ⟨by decide, by decide, .inr (.inr ⟨rfl, rfl⟩)⟩

theorem eq_one_of_beq {x : Float} (h : x == 1) : x = 1 := by
  obtain ⟨-, -, h | ⟨-, h⟩ | ⟨-, h⟩⟩ := Float.beq_iff_ne_nan_and_eq.1 h
  · exact h
  · exact absurd h (by decide)
  · exact absurd h (by decide)

theorem isFinite_plain {x : Float} (h : x.isFinite) : (plain x).isFinite := by
  unfold plain
  split
  · decide
  · exact h

/-- The sign of a zero makes no difference to equality. -/
theorem plain_beq {x : Float} (h : x.isFinite) : plain x == x := by
  unfold plain
  split
  · next hzero =>
    rcases beq_zero_iff.1 hzero with rfl | rfl <;> decide
  · exact Float.beq_self_iff.2 (ne_nan_of_isFinite h)

/-- The sign of a zero makes no difference to a comparison. -/
theorem compare_plain_left (x : Float) (u : UnpackedFloat) :
    (plain x).toModel.unpack.compare u = x.toModel.unpack.compare u := by
  have hzero : UnpackedFloat.compare (.zero .positive) u =
      UnpackedFloat.compare (.zero .negative) u := by
    cases u with
    | infinity s => cases s <;> rfl
    | zero s => rfl
    | finite s m e hp => cases s <;> rfl
    | notANumber => rfl
  unfold plain
  split
  · next hx =>
    rcases beq_zero_iff.1 hx with rfl | rfl
    · rfl
    · exact hzero
  · rfl

/-- The sign of a zero makes no difference to the order. -/
theorem plain_lt_plain_iff {x y : Float} (hx : x.isFinite) (hy : y.isFinite) :
    plain x < plain y ↔ x < y := by
  rw [lt_iff, lt_iff, UnpackedFloat.lt, UnpackedFloat.lt, compare_plain_left,
    compare_swap (isFinite_plain hy) hx, compare_plain_left, ← compare_swap hy hx]

end WorstCase.Double
