import SheetFormula.Number.Double

/-! # Decimal numbers and the magnitudes they are read as -/

namespace SheetFormula

/-- The magnitude `digits · 10 ^ exponent`. -/
structure Decimal where
  digits : Nat
  exponent : Int
deriving DecidableEq

namespace Decimal

/-- The rank nearest to the decimal. Very large and very small exponents are settled without computing
their power: `10 ^ 401` is beyond the finite magnitudes, and `digits < 2 ^ (log2 digits + 1)` with
`2 ^ (3 * e) ≤ 10 ^ e` puts the value below half the least magnitude. -/
def rank (d : Decimal) : Nat :=
  match d.exponent with
  | .ofNat e =>
    if d.digits = 0 then 0
    else if 400 < e then infinityRank
    else nearestRank (d.digits * Nat.pow 10 e) 1
  | .negSucc e =>
    if d.digits.log2 + 1076 < 3 * (e + 1) then 0
    else nearestRank d.digits (Nat.pow 10 (e + 1))

/-- The digits with a point among or zeros around them, never with an exponent. -/
def text (d : Decimal) : List Char :=
  let digits := Nat.toDigits 10 d.digits
  match d.exponent with
  | .ofNat e => digits ++ List.replicate e '0'
  | .negSucc e =>
    let places := e + 1
    if places < digits.length then
      digits.take (digits.length - places) ++ '.' :: digits.drop (digits.length - places)
    else
      '0' :: '.' :: List.replicate (places - digits.length) '0' ++ digits

end Decimal

end SheetFormula
