import SheetFormula.Number.Decimal

/-!
# Number texts

An optional sign, then `inf`, `infinity` or `nan` in any letter case, or a decimal: digits with at most
one point among or around them, then an optional exponent of `e` or `E`, an optional sign and digits.
-/

namespace SheetFormula

inductive Literal where
  | decimal (negative : Bool) (value : Decimal)
  | infinity (negative : Bool)
  | nan
deriving DecidableEq

def digitValue (c : Char) : Nat :=
  c.toNat - '0'.toNat

/-- The value of a run of digits, the first one the most significant. -/
def digitsValue (digits : List Char) : Nat :=
  digits.foldl (fun n c => 10 * n + digitValue c) 0

/-- Splits off a leading sign; true for a minus. -/
def splitSign : List Char → Bool × List Char
  | '+' :: cs => (false, cs)
  | '-' :: cs => (true, cs)
  | cs => (false, cs)

/-- At least one digit and nothing else. -/
def isDigits (cs : List Char) : Bool :=
  !cs.isEmpty && cs.all Char.isDigit

def isExponentMark (c : Char) : Bool :=
  c == 'e' || c == 'E'

/-- The exponent that stands after the mantissa, 0 if nothing does. -/
def exponent? : List Char → Option Int
  | [] => some 0
  | _ :: cs =>
    let (negative, digits) := splitSign cs
    if isDigits digits then
      some (if negative then -(digitsValue digits : Int) else digitsValue digits)
    else
      none

/-- An unsigned decimal text taken apart: the digits before and after the point, and the exponent. -/
structure Numeral where
  whole : List Char
  fraction : List Char
  exponent : Int
deriving DecidableEq

namespace Numeral

def parse? (cs : List Char) : Option Numeral :=
  let mantissa := cs.takeWhile fun c => !isExponentMark c
  let whole := mantissa.takeWhile (· != '.')
  let fraction := (mantissa.dropWhile (· != '.')).drop 1
  if isDigits (whole ++ fraction) then
    (exponent? (cs.dropWhile fun c => !isExponentMark c)).map fun e => ⟨whole, fraction, e⟩
  else
    none

/-- Its exact value. -/
def toDecimal (x : Numeral) : Decimal :=
  ⟨digitsValue (x.whole ++ x.fraction), x.exponent - x.fraction.length⟩

end Numeral

namespace Literal

def parse? (cs : List Char) : Option Literal :=
  let (negative, body) := splitSign cs
  let word := body.map Char.toLower
  if word = "inf".toList ∨ word = "infinity".toList then
    some (.infinity negative)
  else if word = "nan".toList then
    some .nan
  else
    (Numeral.parse? body).map fun x => .decimal negative x.toDecimal

/-- The nearest double. -/
def toDouble : Literal → Double
  | .decimal negative value => Double.ofRank negative value.rank
  | .infinity negative => .infinite negative
  | .nan => .nan

end Literal

/-- The double that a text denotes. -/
def readDouble? (text : String) : Option Double :=
  (Literal.parse? text.toList).map Literal.toDouble

end SheetFormula
