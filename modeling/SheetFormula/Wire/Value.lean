import SheetFormula.Formula
import SheetFormula.Number.Word

/-!
# Formulas as values of a data format

A formula is a string value. Any other value is refused with its type.
-/

namespace SheetFormula

inductive Value where
  | null
  | boolean (b : Bool)
  /-- A number as it was written. -/
  | number (text : String)
  | string (text : String)
  | sequence
  | map

/-- The whole number of a text without fraction and exponent that fits 64 bits, signed or unsigned.
A negative zero is not whole. -/
def wholeNumber? (text : String) : Option Int :=
  let (negative, digits) := splitSign text.toList
  let n := digitsValue digits
  if isDigits digits then
    if negative then
      if n = 0 ∨ 1 <<< 63 < n then none else some (-(n : Int))
    else
      if n < 1 <<< 64 then some n else none
  else
    none

/-- The text of a number that is not whole, as it was written if it is not finite. -/
def pointedText (text : String) : String :=
  let (negative, body) := splitSign text.toList
  match Numeral.parse? body with
  | none => text
  | some x =>
    let rank := wordRank x.toWord
    if rank < infinityRank then
      String.ofList (cond negative ['-'] [] ++ (shortest .even rank).pointed)
    else
      text

namespace Value

def describe : Value → String
  | .null => "null"
  | .boolean b => s!"boolean `{b}`"
  | .number text =>
    match wholeNumber? text with
    | some n => s!"integer `{n}`"
    | none => s!"floating point `{pointedText text}`"
  | .string text => s!"string \"{text}\""
  | .sequence => "sequence"
  | .map => "map"

end Value

namespace Formula

/-- The text of a formula as a value. -/
def toValue (f : Formula) : Value :=
  .string f.normalized

/-- Reads a formula, or says why not. -/
def ofValue : Value → Except String Formula
  | .string text =>
    match parse .upper text with
    | .ok f => .ok f
    | .error r => .error r.describe
  | v => .error s!"invalid type: {v.describe}, expected a formula string"

end Formula

end SheetFormula
