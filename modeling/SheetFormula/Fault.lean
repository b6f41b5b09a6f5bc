import SheetFormula.Text.Span

/-! # Rules and the faults that break them -/

namespace SheetFormula

/-- What every formula satisfies. -/
inductive Rule where
  /-- There is at least one token. -/
  | oneToken
  /-- There are only numbers, variables, operators and parentheses. -/
  | validTokens
  /-- From the left, closing parentheses never outnumber opening ones. -/
  | closingParenthesis
  /-- Every parenthesis is closed. -/
  | balancedParentheses
  /-- A number, a variable or an opening parenthesis comes first. -/
  | firstToken
  /-- A number, a variable or a closing parenthesis comes last. -/
  | lastToken
  /-- After an operator or an opening parenthesis an operand starts. -/
  | afterOperator
  /-- After an operand comes an operator or a closing parenthesis. -/
  | afterOperand
deriving DecidableEq

namespace Rule

def name : Rule → String
  | .oneToken => "one token"
  | .validTokens => "valid tokens"
  | .closingParenthesis => "closing parenthesis"
  | .balancedParentheses => "balanced parentheses"
  | .firstToken => "first token"
  | .lastToken => "last token"
  | .afterOperator => "parenthesis/operator following"
  | .afterOperand => "extra following"

def code : Rule → String
  | .oneToken => "F001"
  | .validTokens => "F002"
  | .closingParenthesis => "F003"
  | .balancedParentheses => "F004"
  | .firstToken => "F005"
  | .lastToken => "F006"
  | .afterOperator => "F007"
  | .afterOperand => "F008"

def describe (r : Rule) : String :=
  s!"{r.name} rule"

end Rule

/-- Why a formula is rejected. Tokens are given by their descriptions. -/
inductive Fault where
  | empty
  | invalidToken (text : String)
  | invalidNumber (text : String)
  | unmatchedClose
  | unclosed (count : Nat)
  | invalidFirst (found : String)
  | invalidLast (found : String)
  | missingOperand (previous found : String)
  | missingOperator (previous found : String)
deriving DecidableEq

namespace Fault

def rule : Fault → Rule
  | .empty => .oneToken
  | .invalidToken _ | .invalidNumber _ => .validTokens
  | .unmatchedClose => .closingParenthesis
  | .unclosed _ => .balancedParentheses
  | .invalidFirst _ => .firstToken
  | .invalidLast _ => .lastToken
  | .missingOperand .. => .afterOperator
  | .missingOperator .. => .afterOperand

def message : Fault → String
  | .empty => "Formula must contain at least one token"
  | .invalidToken text => s!"Invalid token '{text}'"
  | .invalidNumber text => s!"Number '{text}' is out of range"
  | .unmatchedClose => "Closing parenthesis has no matching opening parenthesis"
  | .unclosed 1 => "1 opening parenthesis is never closed"
  | .unclosed count => s!"{count} opening parentheses are never closed"
  | .invalidFirst found => s!"Formula cannot start with {found}"
  | .invalidLast found => s!"Formula cannot end with {found}"
  | .missingOperand previous found =>
    s!"Expected a number, variable or '(' after {previous}, found {found}"
  | .missingOperator previous found =>
    s!"Expected an operator or ')' after {previous}, found {found}"

def help : Fault → String
  | .empty => "Write a number, a variable or an expression"
  | .invalidToken _ =>
    "Use numbers (3.14, 2e5), variables (letters then digits, like A1), + - * / and parentheses"
  | .invalidNumber _ => "The number is too large to represent"
  | .unmatchedClose => "Remove it or add a matching '('"
  | .unclosed _ => "Add the missing closing parenthesis"
  | .invalidFirst _ => "A formula starts with a number, a variable or '('"
  | .invalidLast _ => "A formula ends with a number, a variable or ')'"
  | .missingOperand .. => "An operand is missing here"
  | .missingOperator .. => "Two operands must be separated by an operator"

end Fault

/-- A place besides the fault's own that explains it. -/
inductive Note where
  /-- A parenthesis that is never closed. -/
  | openedHere (span : Span)
  /-- What stands before the fault. -/
  | precededBy (what : String) (span : Span)
deriving DecidableEq

namespace Note

def span : Note → Span
  | .openedHere span => span
  | .precededBy _ span => span

def message : Note → String
  | .openedHere _ => "parenthesis opened here"
  | .precededBy what _ => s!"after this {what}"

end Note

/-- A fault, where it is in the source, and the notes on it. -/
structure Rejection where
  fault : Fault
  source : String
  span : Span
  notes : List Note
deriving DecidableEq

namespace Rejection

def rule (r : Rejection) : Rule :=
  r.fault.rule

/-- The fault in two lines, the second with the help. -/
def describe (r : Rejection) : String :=
  s!"error: {r.fault.message} [{r.rule.code}]\nhelp: {r.fault.help}"

end Rejection

end SheetFormula
