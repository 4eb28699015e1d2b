import WorstCase.Number.Decimal

/-!
# Whole numbers in a range

Reads a number written in digits, with or without a plus sign, that is not larger than a limit.
-/

namespace WorstCase.Text

/-- The number that the text writes, if it has digits only and is at most `largest`. -/
def readUpTo? (largest : Nat) (cs : List Char) : Option Nat :=
  let ds := match cs with
    | '+' :: ds => ds
    | ds => ds
  if !ds.isEmpty && ds.all Char.isDigit then
    let n := Decimal.digitsValue ds
    if n ≤ largest then some n else none
  else none

end WorstCase.Text
