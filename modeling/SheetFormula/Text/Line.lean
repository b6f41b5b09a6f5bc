/-! # Lines of a text or of bytes -/

namespace SheetFormula

/-- Lines end in `lf` or `cr` and `lf`; a rest without terminator is a line if it is not empty. What the
current line holds so far comes in reverse. -/
def linesFrom {α : Type} [DecidableEq α] (lf cr : α) (current : List α) : List α → List (List α)
  | [] => if current.isEmpty then [] else [current.reverse]
  | b :: rest =>
    if b = lf then
      (if current.head? = some cr then current.tail else current).reverse :: linesFrom lf cr [] rest
    else
      linesFrom lf cr (b :: current) rest

def byteLines (bytes : List UInt8) : List (List UInt8) :=
  linesFrom 10 13 [] bytes

def textLines (text : String) : List String :=
  (linesFrom '\n' '\r' [] text.toList).map String.ofList

end SheetFormula
