/-!
# Numbers of varying length

Seven bits to a byte, the lowest first; the high bit says that another byte follows. At most ten bytes
are read, and the value has at most 64 bits.
-/

namespace SheetFormula

def writeVarint (n : Nat) : List UInt8 :=
  if n < 128 then [n.toUInt8] else (n % 128 + 128).toUInt8 :: writeVarint (n / 128)
termination_by n

inductive VarintFault where
  | unexpectedEnd
  | tooLong
deriving DecidableEq

/-- Reads a number and gives the bytes after it. At most `more` bytes come after the first one, and a
byte with none after it is at most 1. -/
def readVarint : (more : Nat) → List UInt8 → Except VarintFault (Nat × List UInt8)
  | _, [] => .error .unexpectedEnd
  | 0, b :: rest => if b.toNat ≤ 1 then .ok (b.toNat, rest) else .error .tooLong
  | more + 1, b :: rest =>
    if b.toNat < 128 then .ok (b.toNat, rest)
    else (readVarint more rest).map fun r => (b.toNat - 128 + 128 * r.1, r.2)

end SheetFormula
