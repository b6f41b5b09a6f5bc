/-!
# Binary64 magnitudes and rounding to them

The finite magnitudes in ascending order are numbered by their rank, which is also the binary64 word
without its sign bit. Rank `k` stands for `units k · 2^-1074`. A quotient is rounded to the nearest
magnitude, a tie to the even rank.
-/

namespace SheetFormula

/-- The rank where the finite magnitudes end. -/
def infinityRank : Nat :=
  2047 <<< 52

/-- The magnitudes next to rank `k` are `2 ^ spacing k` units apart. -/
def spacing (k : Nat) : Nat :=
  (k >>> 52) - 1

/-- The magnitude of rank `k`, counted in the least positive one. -/
def units (k : Nat) : Nat :=
  (k - (spacing k <<< 52)) <<< spacing k

/-- The integer nearest to `n / d`, and of two the even one. -/
def roundHalfEven (n d : Nat) : Nat :=
  let q := n / d
  let r := 2 * (n % d)
  if r < d then q else if d < r then q + 1 else q + q % 2

/-- The rank nearest to `n / d`; at `infinityRank` and above there is no finite magnitude. -/
def nearestRank (n d : Nat) : Nat :=
  let scaled := n <<< 1074
  let s := (scaled / d).log2 - 52
  (s <<< 52) + roundHalfEven scaled (d <<< s)

end SheetFormula
