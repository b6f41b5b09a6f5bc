import SheetFormula.Number.Literal
import SheetFormula.Number.Shortest

/-! # Canonical number texts -/

namespace SheetFormula

/-- Why a text has no canonical form. -/
inductive NumberFault where
  /-- It is no number text. -/
  | malformed
  /-- Its value is not finite. -/
  | outOfRange
deriving DecidableEq

/-- The shortest positional text of a finite double, the upper of two equally near ones. A set sign bit
is written, also for zero. -/
def finiteText (negative : Bool) (rank : Nat) : String :=
  String.ofList (cond negative ['-'] [] ++ (shortest .up rank).text)

/-- The canonical text of the double that `text` denotes. -/
def normalizeNumber (text : String) : Except NumberFault String :=
  match readDouble? text with
  | none => .error .malformed
  | some (.finite negative rank) => .ok (finiteText negative rank)
  | some _ => .error .outOfRange

end SheetFormula
