import WorstCase.Number.Shortest

/-!
# Scalars

The arithmetic that linear programs, the models over them and their solvers run on. No law is asked
of the operations, so doubles qualify, and what is defined here for every scalar can be run on
doubles and read over the rationals.
-/

namespace WorstCase

/-- Numbers a linear program can be written in. -/
class Scalar (α : Type) where
  ofNat : Nat → α
  add : α → α → α
  sub : α → α → α
  mul : α → α → α
  div : α → α → α
  neg : α → α
  lt : α → α → Prop
  le : α → α → Prop
  decLt (a b : α) : Decidable (lt a b)
  decLe (a b : α) : Decidable (le a b)
  /-- Equality as numbers. It need not be reflexive. -/
  beq : α → α → Bool
  abs : α → α
  floor : α → α
  ceil : α → α
  /-- The nearest whole number, a half going away from zero. -/
  round : α → α
  /-- The nearest whole number as an integer; none for infinities and for what is no number. -/
  nearest? : α → Option Int

namespace Scalar

variable {α : Type} [Scalar α]

instance (priority := low) : Zero α := ⟨ofNat 0⟩

instance (priority := low) : One α := ⟨ofNat 1⟩

instance (priority := low) : Add α := ⟨add⟩

instance (priority := low) : Sub α := ⟨sub⟩

instance (priority := low) : Mul α := ⟨mul⟩

instance (priority := low) : Div α := ⟨div⟩

instance (priority := low) : Neg α := ⟨neg⟩

instance (priority := low) : LT α := ⟨lt⟩

instance (priority := low) : LE α := ⟨le⟩

instance (priority := low) : BEq α := ⟨beq⟩

instance (priority := low) (a b : α) : Decidable (a < b) := decLt a b

instance (priority := low) (a b : α) : Decidable (a ≤ b) := decLe a b

end Scalar

/-- Scalars that have a decimal text. -/
class Numeral (α : Type) where
  text : α → List Char
  ofDecimal : Decimal → α

/-! ## Doubles -/

namespace Double

open Float.Model (UnpackedFloat)

/-- How the magnitude `m / d` of a number is made whole. -/
inductive Rounding
  | down
  | up
  | nearest

/-- The whole number that the rule makes of the magnitude `m / d`. -/
def Rounding.apply (r : Rounding) (m d : Nat) : Nat :=
  match r with
  | .down => m / d
  | .up => (m + d - 1) / d
  | .nearest => (2 * m + d) / (2 * d)

/-- Makes a double whole; the sign stays, so a magnitude below one can give a negative zero. -/
def whole (rule : UnpackedFloat.Sign → Rounding) (x : Float) : Float :=
  match x.toModel.unpack with
  | .finite s m e _ =>
    if 0 ≤ e then x
    else
      let n := ((rule s).apply m (Nat.pow 2 (-e).toNat)).toUInt64.toFloat
      match s with
      | .positive => n
      | .negative => -n
  | _ => x

def floor : Float → Float :=
  whole fun
    | .positive => .down
    | .negative => .up

def ceil : Float → Float :=
  whole fun
    | .positive => .up
    | .negative => .down

def round : Float → Float :=
  whole fun _ => .nearest

def nearest? (x : Float) : Option Int :=
  match x.toModel.unpack with
  | .finite s m e _ =>
    let n := Rounding.nearest.apply (m * Nat.pow 2 e.toNat) (Nat.pow 2 (-e).toNat)
    some (s.apply n)
  | .zero _ => some 0
  | _ => none

end Double

instance : Scalar Float where
  ofNat := Float.ofNat
  add := Float.add
  sub := Float.sub
  mul := Float.mul
  div := Float.div
  neg := Float.neg
  lt := (· < ·)
  le := (· ≤ ·)
  decLt := Float.decLt
  decLe := Float.decLe
  beq := Float.beq
  abs := Float.abs
  floor := Double.floor
  ceil := Double.ceil
  round := Double.round
  nearest? := Double.nearest?

instance : Numeral Float where
  text := Shortest.text
  ofDecimal := Decimal.toFloat

/-- The double that a text stands for: a number with an optional sign, `inf` or `NaN`. -/
def Double.ofText? (cs : List Char) : Option Float :=
  let magnitude? : List Char → Option Float
    | ['i', 'n', 'f'] => some (1 / 0)
    | ['N', 'a', 'N'] => some (0 / 0)
    | cs =>
      match Decimal.read? cs with
      | some (d, []) => some d.toFloat
      | _ => none
  match cs with
  | '-' :: rest => (magnitude? rest).map (- ·)
  | '+' :: rest => magnitude? rest
  | _ => magnitude? cs

/-! ## Rationals -/

namespace Rational

/-- The nearest integer, a half going away from zero. -/
def nearest (x : Rat) : Int :=
  if x < 0 then (x - 1 / 2).ceil else (x + 1 / 2).floor

end Rational

instance : Scalar Rat where
  ofNat n := n
  add := (· + ·)
  sub := (· - ·)
  mul := (· * ·)
  div := (· / ·)
  neg := (- ·)
  lt := (· < ·)
  le := (· ≤ ·)
  decLt := inferInstance
  decLe := inferInstance
  beq := (· == ·)
  abs x := if x < 0 then -x else x
  floor x := x.floor
  ceil x := x.ceil
  round x := Rational.nearest x
  nearest? x := some (Rational.nearest x)

end WorstCase
