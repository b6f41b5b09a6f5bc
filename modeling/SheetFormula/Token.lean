import SheetFormula.Text.Span

/-! # Tokens of a formula -/

namespace SheetFormula

inductive Operator where
  | add
  | sub
  | mul
  | div
deriving DecidableEq

def Operator.char : Operator → Char
  | .add => '+'
  | .sub => '-'
  | .mul => '*'
  | .div => '/'

inductive Kind where
  | number
  | var
  | operator (op : Operator)
  | openParen
  | closeParen
deriving DecidableEq

namespace Kind

/-- Only an operator or a closing parenthesis may follow these. -/
def endsOperand : Kind → Bool
  | .number | .var | .closeParen => true
  | .operator _ | .openParen => false

def startsOperand : Kind → Bool
  | .number | .var | .openParen => true
  | .operator _ | .closeParen => false

/-- The name used in messages. -/
def describe : Kind → String
  | .number => "number"
  | .var => "variable"
  | .operator _ => "operator"
  | .openParen => "opening parenthesis"
  | .closeParen => "closing parenthesis"

/-- The name used in listings and events. -/
def label : Kind → String
  | .number => "Number"
  | .var => "Variable"
  | .operator .add => "Operator(Add)"
  | .operator .sub => "Operator(Sub)"
  | .operator .mul => "Operator(Mul)"
  | .operator .div => "Operator(Div)"
  | .openParen => "OpenParen"
  | .closeParen => "CloseParen"

def operator? : Kind → Option Operator
  | .operator op => some op
  | _ => none

end Kind

/-- A classified piece of a formula: its normalized text and where it was written. -/
structure Token where
  kind : Kind
  text : String
  span : Span
deriving DecidableEq

namespace Token

/-- The same kind and text, wherever they stand. -/
def sameAs (s t : Token) : Bool :=
  s.kind == t.kind && s.text == t.text

/-- As in `operator '+'`. -/
def describe (t : Token) : String :=
  s!"{t.kind.describe} '{t.text}'"

end Token

/-- How variable names are normalized. -/
inductive VariableCase where
  | upper
  | preserve
deriving DecidableEq

/-- Turns `a` to `z` into `A` to `Z` and keeps every other character. -/
def upperText (text : String) : String :=
  String.ofList (text.toList.map Char.toUpper)

def VariableCase.apply : VariableCase → String → String
  | .upper, name => upperText name
  | .preserve, name => name

end SheetFormula
