/-!
# Decimal numbers

A decimal number is a whole number times a power of ten. Its text is positional: it never has an
exponent, and a whole number has no point. Reading takes the longest number that a text starts
with, with an optional fraction and an optional exponent.
-/

namespace WorstCase

/-- The number `coefficient * 10 ^ exponent`. -/
structure Decimal where
  coefficient : Nat
  exponent : Int
deriving DecidableEq, Repr

namespace Decimal

/-- The value of a run of digits. -/
def digitsValue (ds : List Char) : Nat :=
  ds.foldl (fun n c => 10 * n + (c.toNat - '0'.toNat)) 0

/-- The digits of a whole number, without leading zeros. -/
def digits (n : Nat) : List Char :=
  Nat.toDigits 10 n

/-- The positional text: zeros are written out and there is no exponent. -/
def text (d : Decimal) : List Char :=
  let ds := digits d.coefficient
  match d.exponent with
  | .ofNat zeros => ds ++ List.replicate zeros '0'
  | .negSucc k =>
    let places := k + 1
    if ds.length ≤ places then
      '0' :: '.' :: (List.replicate (places - ds.length) '0' ++ ds)
    else
      ds.take (ds.length - places) ++ '.' :: ds.drop (ds.length - places)

/-- The double nearest to the number. Exponents beyond the range of doubles are cut off first: past
them the answer is an infinity or zero whatever the exponent. -/
def toFloat (d : Decimal) : Float :=
  match d.exponent with
  | .ofNat k => Float.ofScientific d.coefficient false (min k 400)
  | .negSucc k => Float.ofScientific d.coefficient true (min (k + 1) (d.coefficient.log2 + 401))

/-! ## Reading -/

/-- An exponent: the letter, an optional sign and at least one digit. Without one of its parts the
text is left as it is and the exponent is 0. -/
def readExponent (cs : List Char) : Int × List Char :=
  match cs with
  | [] => (0, [])
  | e :: rest =>
    if e = 'e' ∨ e = 'E' then
      let (negative, tail) :=
        match rest with
        | '-' :: t => (true, t)
        | '+' :: t => (false, t)
        | t => (false, t)
      match tail.takeWhile Char.isDigit with
      | [] => (0, cs)
      | ds =>
        let n : Int := digitsValue ds
        (if negative then -n else n, tail.dropWhile Char.isDigit)
    else
      (0, cs)

/-- The longest number at the start of the text, and the text after it: digits, a fraction that has
at least one digit, an exponent. A point that no digit follows is not part of the number. -/
def read? (cs : List Char) : Option (Decimal × List Char) :=
  let whole := cs.takeWhile Char.isDigit
  let rest := cs.dropWhile Char.isDigit
  let fraction :=
    match rest with
    | '.' :: t => t.takeWhile Char.isDigit
    | _ => []
  match whole, fraction with
  | [], [] => none
  | _, [] =>
    let (exponent, rest) := readExponent rest
    some (⟨digitsValue whole, exponent⟩, rest)
  | _, _ :: _ =>
    let (exponent, rest) := readExponent (rest.drop (fraction.length + 1))
    some (⟨digitsValue (whole ++ fraction), exponent - fraction.length⟩, rest)

end Decimal

end WorstCase
