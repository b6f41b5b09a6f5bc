import SheetFormula.Text.Blank
import SheetFormula.Token

/-!
# Lexemes

A text is cut from the left into lexemes, each the longest that matches: single blanks, operators and
parentheses, numbers, and otherwise whole runs of characters up to the next blank, operator or
parenthesis. A number reaches past its run when its exponent is signed, as in `1e+5`. Digits and letters
are ASCII only.
-/

namespace SheetFormula

inductive Shape where
  | blank
  | mark (kind : Kind)
  | number
  | var
  | unknown
deriving DecidableEq

structure Lexeme where
  shape : Shape
  text : List Char
deriving DecidableEq

/-- The operators and parentheses, which are lexemes by themselves. -/
def markKind? : Char → Option Kind
  | '+' => some (.operator .add)
  | '-' => some (.operator .sub)
  | '*' => some (.operator .mul)
  | '/' => some (.operator .div)
  | '(' => some .openParen
  | ')' => some .closeParen
  | _ => none

def isSeparator (c : Char) : Bool :=
  isBlank c || (markKind? c).isSome

/-! ## Numbers -/

def digitsLength (cs : List Char) : Nat :=
  (cs.takeWhile Char.isDigit).length

def signLength : List Char → Nat
  | '+' :: _ | '-' :: _ => 1
  | _ => 0

/-- The length of the longest mantissa at the head, 0 if there is none: digits with an optional point
after or among them, or a point and digits. -/
def mantissaLength (cs : List Char) : Nat :=
  let whole := digitsLength cs
  match cs.drop whole with
  | '.' :: rest =>
    let fraction := digitsLength rest
    if whole = 0 ∧ fraction = 0 then 0 else whole + 1 + fraction
  | _ => whole

/-- The length of the exponent at the head, 0 if there is none: `e` or `E`, an optional sign, digits. -/
def exponentLength : List Char → Nat
  | [] => 0
  | c :: cs =>
    let sign := signLength cs
    let digits := digitsLength (cs.drop sign)
    if (c = 'e' ∨ c = 'E') ∧ digits ≠ 0 then 1 + sign + digits else 0

/-- The length of the longest number at the head, 0 if there is none. -/
def numberLength (cs : List Char) : Nat :=
  let mantissa := mantissaLength cs
  if mantissa = 0 then 0 else mantissa + exponentLength (cs.drop mantissa)

/-! ## Variables and the cut -/

/-- Letters followed by digits. -/
def isVariable (cs : List Char) : Bool :=
  let digits := cs.dropWhile Char.isAlpha
  !(cs.takeWhile Char.isAlpha).isEmpty && !digits.isEmpty && digits.all Char.isDigit

/-- The shape of the lexeme that `c` starts, and how many characters of `cs` belong to it. -/
def firstShape (c : Char) (cs : List Char) : Shape × Nat :=
  if isBlank c then (.blank, 0)
  else match markKind? c with
    | some kind => (.mark kind, 0)
    | none =>
      let run := (cs.takeWhile fun d => !isSeparator d).length
      let number := numberLength (c :: cs)
      if run < number then (.number, number - 1)
      else if isVariable (c :: cs.take run) then (.var, run)
      else (.unknown, run)

def lexemes : List Char → List Lexeme
  | [] => []
  | c :: cs =>
    let first := firstShape c cs
    ⟨first.1, c :: cs.take first.2⟩ :: lexemes (cs.drop first.2)
termination_by cs => cs.length

end SheetFormula
