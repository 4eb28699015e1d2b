import WorstCase.Number.Decimal

/-!
# The shortest decimal of a double

A double stands for an interval of reals: all that round to it. Its text is the decimal with the
fewest digits in that interval, and of several such the nearest to the double. The grids of
multiples of a power of ten are tried from the coarsest on. A grid has a point in the interval
exactly when one of the two grid points next to the double is in it, so two tests a grid are enough,
and the first grid with a hit gives the fewest digits.
-/

namespace WorstCase.Shortest

open Float.Model (UnpackedFloat)

/-- The reals that round to `mantissa * 2 ^ exponent`, in quarters of its last place: the ends are
`low` and `high`, and belong to the interval when the mantissa is even. -/
structure Interval where
  low : Nat
  value : Nat
  high : Nat
  closed : Bool
  /-- The power of two that one quarter of the last place is. -/
  scale : Int

/-- Below a power of two the doubles are twice as dense, so the interval of one reaches half as far
down, the smallest normal double apart. -/
def Interval.ofDouble (mantissa : Nat) (exponent : Int) : Interval where
  low :=
    if mantissa = 0x10000000000000 ∧ -1074 < exponent then 4 * mantissa - 1 else 4 * mantissa - 2
  value := 4 * mantissa
  high := 4 * mantissa + 2
  closed := mantissa % 2 = 0
  scale := exponent - 2

/-- The point of the grid of multiples of `10 ^ place` that stands for the interval, if the grid has
one: the nearer of the two next to the value, the upper one when both are as near. -/
def Interval.onGrid? (i : Interval) (place : Int) : Option Nat :=
  let p := Nat.pow 10 place.toNat * Nat.pow 2 (-i.scale).toNat
  let q := Nat.pow 10 (-place).toNat * Nat.pow 2 i.scale.toNat
  let contains (c : Nat) : Bool :=
    if i.closed then i.low * q ≤ c * p && c * p ≤ i.high * q
    else i.low * q < c * p && c * p < i.high * q
  let below := i.value * q / p
  let above := below + 1
  match contains below, contains above with
  | true, true =>
    if i.value * q - below * p < above * p - i.value * q then some below else some above
  | true, false => some below
  | false, true => some above
  | false, false => none

/-- Tries `tries` grids, each ten times as fine as the one before. -/
def Interval.search (i : Interval) : Nat → Int → Decimal
  | 0, place => ⟨i.value * Nat.pow 10 (-place).toNat * Nat.pow 2 i.scale.toNat /
      (Nat.pow 10 place.toNat * Nat.pow 2 (-i.scale).toNat), place⟩
  | tries + 1, place =>
    match i.onGrid? place with
    | some c => ⟨c, place⟩
    | none => i.search tries (place - 1)

/-- The shortest decimal of `mantissa * 2 ^ exponent`. The first grid is coarser than the double is
large, and 17 digits always tell two doubles apart, which bounds the number of grids. -/
def ofDouble (mantissa : Nat) (exponent : Int) : Decimal :=
  let size : Int := mantissa.log2 + exponent + 2
  (Interval.ofDouble mantissa exponent).search 24 (size * 30103 / 100000 + 1)

/-- The text of a double: the shortest decimal that reads back, written positionally. -/
def text (x : Float) : List Char :=
  let sign : UnpackedFloat.Sign → List Char
    | .negative => ['-']
    | .positive => []
  match x.toModel.unpack with
  | .notANumber => ['N', 'a', 'N']
  | .infinity s => sign s ++ ['i', 'n', 'f']
  | .zero s => sign s ++ ['0']
  | .finite s m e _ => sign s ++ (ofDouble m e).text

end WorstCase.Shortest
