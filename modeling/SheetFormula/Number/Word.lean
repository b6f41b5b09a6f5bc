import SheetFormula.Number.Literal
import SheetFormula.Number.Shortest

/-!
# Numbers of data values

A number of a data value is read through a 64-bit word: its first digits that fit the word and the power
of ten that scales them are each rounded to a magnitude, and so is their product. It is written with the
fewest digits, positionally from `10 ^ -5` up to below `10 ^ 16` and with an exponent elsewhere.
-/

namespace SheetFormula

/-! ## Reading -/

/-- Appends digits to `n` as long as the value fits the word, and counts those that are left. -/
def fillWord (n : Nat) : List Char → Nat × Nat
  | [] => (n, 0)
  | c :: cs =>
    let next := 10 * n + digitValue c
    if next < 1 <<< 64 then fillWord next cs else (n, cs.length + 1)

/-- The word and the power of ten that scales it. Digits that do not fit are read as zeros before the
point and dropped after it. -/
def Numeral.toWord (x : Numeral) : Decimal :=
  let whole := fillWord 0 x.whole
  let all := fillWord whole.1 x.fraction
  ⟨all.1, x.exponent + whole.2 - (x.fraction.length - all.2 : Nat)⟩

/-- The rank nearest to `10 ^ e`. -/
def tenRank (e : Nat) : Nat :=
  Decimal.rank ⟨1, e⟩

/-- Divides the magnitude of rank `k` by `10 ^ e`, in several steps if the power is not finite. -/
def divideByTens (k e : Nat) : Nat :=
  if e ≤ 308 then nearestRank (units k) (units (tenRank e))
  else if k = 0 then 0
  else divideByTens (nearestRank (units k) (units (tenRank 308))) (e - 308)
termination_by e

/-- Multiplies the magnitude of rank `k` by `10 ^ e`. -/
def multiplyByTens (k e : Nat) : Nat :=
  if k = 0 then 0
  else if 308 < e then infinityRank
  else nearestRank (units k * units (tenRank e)) (1 <<< 2148)

/-- The rank that a word and a power of ten give, each of them rounded. -/
def wordRank (d : Decimal) : Nat :=
  let k := nearestRank d.digits 1
  match d.exponent with
  | .ofNat e => multiplyByTens k e
  | .negSucc e => divideByTens k (e + 1)

/-! ## Writing -/

/-- The first digit, a point and the other digits if there are any, and a signed exponent. -/
def Decimal.scientific (d : Decimal) : List Char :=
  let digits := Nat.toDigits 10 d.digits
  let exponent := d.exponent + (digits.length - 1 : Nat)
  let fraction := if digits.length ≤ 1 then [] else '.' :: digits.drop 1
  let sign := if exponent < 0 then '-' else '+'
  digits.take 1 ++ fraction ++ 'e' :: sign :: Nat.toDigits 10 exponent.natAbs

/-- Positional with a point in any case, or with an exponent. -/
def Decimal.pointed (d : Decimal) : List Char :=
  let point := d.exponent + (Nat.toDigits 10 d.digits).length
  if -5 < point ∧ point ≤ 16 then
    if d.text.contains '.' then d.text else d.text ++ ['.', '0']
  else
    d.scientific

end SheetFormula
