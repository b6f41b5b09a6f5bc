import SheetFormula.Number.Decimal

/-!
# The shortest decimal of a magnitude

The multiples of `10 ^ e` form the grid of exponent `e`. Going from coarse to fine, the first grid with
a point that is read back as the given rank gives the decimal with the fewest digits. Only the two grid
points around the magnitude need a look, since what reads back is an interval around it. Grids are
numbered from exponent `-1074`, where every magnitude is a grid point itself.
-/

namespace SheetFormula

/-- The magnitude of rank `k` as a multiple of `10 ^ -1074`. -/
def fineUnits (k : Nat) : Nat :=
  units k * Nat.pow 5 1074

/-- The point `n` of grid `g`. -/
def gridPoint (g n : Nat) : Decimal :=
  ⟨n, (g : Int) - 1074⟩

/-- Which of two equally near grid points is taken. -/
inductive Tie where
  | up
  | even
deriving DecidableEq

/-- Whether the grid point `low` is taken for what lies `rest` above it, with points `step` apart. -/
def Tie.takesLow (tie : Tie) (low rest step : Nat) : Bool :=
  2 * rest < step || (2 * rest == step && tie == .even && low % 2 == 0)

/-- The point of grid `g` next to rank `k` that is read back as `k`, and the nearer one if both are. -/
def nearestOnGrid? (tie : Tie) (k g : Nat) : Option Decimal :=
  let step := Nat.pow 10 g
  let low := fineUnits k / step
  let below := gridPoint g low
  let above := gridPoint g (low + 1)
  if above.rank = k then
    if below.rank = k ∧ tie.takesLow low (fineUnits k % step) step then some below else some above
  else if below.rank = k then
    some below
  else
    none

/-- The first grid from `g` down that has a point read back as rank `k`. -/
def shortestFrom (tie : Tie) (k : Nat) : Nat → Decimal
  | 0 => gridPoint 0 (fineUnits k)
  | g + 1 => (nearestOnGrid? tie k (g + 1)).getD (shortestFrom tie k g)

/-- A grid whose first point is above rank `k`: `2 ^ 93 ≤ 10 ^ 28`. -/
def coarsestGrid (k : Nat) : Nat :=
  28 * ((fineUnits k).log2 + 1) / 93 + 1

/-- The decimal with the fewest digits that is read back as rank `k`, and of those the nearest. -/
def shortest (tie : Tie) (k : Nat) : Decimal :=
  if k = 0 then ⟨0, 0⟩ else shortestFrom tie k (coarsestGrid k)

end SheetFormula
