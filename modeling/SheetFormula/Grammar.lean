import SheetFormula.Token

/-!
# The grammar of formulas

Stated on the kinds of the tokens: an expression is operands joined by operators, an operand is a
number, a variable or an expression in parentheses.
-/

namespace SheetFormula

mutual
inductive IsExpr : List Kind → Prop
  | operand {w} : IsOperand w → IsExpr w
  | binary {u v} (op : Operator) : IsExpr u → IsOperand v → IsExpr (u ++ .operator op :: v)
inductive IsOperand : List Kind → Prop
  | number : IsOperand [.number]
  | var : IsOperand [.var]
  | group {w} : IsExpr w → IsOperand (.openParen :: w ++ [.closeParen])
end

end SheetFormula
