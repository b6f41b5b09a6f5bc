import SheetFormula.Number.Rounding

/-! # Binary64 numbers -/

namespace SheetFormula

inductive Double where
  | finite (negative : Bool) (rank : Fin infinityRank)
  | infinite (negative : Bool)
  | nan
deriving DecidableEq

namespace Double

/-- The number of a rank, infinite where the finite ranks end. -/
def ofRank (negative : Bool) (k : Nat) : Double :=
  if h : k < infinityRank then .finite negative ⟨k, h⟩ else .infinite negative

def isNegative : Double → Bool
  | .finite negative _ => negative
  | .infinite negative => negative
  | .nan => false

/-- The binary64 word; every NaN has the same one. -/
def word : Double → Nat
  | .finite negative rank => cond negative (1 <<< 63) 0 + rank
  | .infinite negative => cond negative (1 <<< 63) 0 + infinityRank
  | .nan => infinityRank + (1 <<< 51)

/-- The word in sixteen hexadecimal digits, or `nan`. -/
def hex : Double → String
  | .nan => "nan"
  | x =>
    let digits := Nat.toDigits 16 x.word
    String.ofList (List.replicate (16 - digits.length) '0' ++ digits)

end Double

end SheetFormula
