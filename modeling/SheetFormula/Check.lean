import SheetFormula.Fault
import SheetFormula.Token

/-!
# The rule check

One pass from the left keeps the token before and the parentheses still open. The first rule that breaks
ends it.
-/

namespace SheetFormula

/-- The fault of a token right after `previous`, or at the very start. -/
def followFault? : Option Token → Token → Option (Fault × List Note)
  | none, t => if t.kind.startsOperand then none else some (.invalidFirst t.describe, [])
  | some s, t =>
    match s.kind.endsOperand, t.kind.startsOperand with
    | true, true =>
      some (.missingOperator s.describe t.describe, [.precededBy s.kind.describe s.span])
    | false, false =>
      some (.missingOperand s.describe t.describe, [.precededBy s.kind.describe s.span])
    | _, _ => none

/-- The open parentheses after a token, innermost first; none if it closes one that is not there. -/
def openAfter? (opened : List Span) (t : Token) : Option (List Span) :=
  match t.kind with
  | .openParen => some (t.span :: opened)
  | .closeParen => opened.tail?
  | _ => some opened

/-- How far the check has come. -/
structure Progress where
  previous : Option Token
  opened : List Span
deriving DecidableEq

namespace Progress

def start : Progress :=
  ⟨none, []⟩

def step (source : String) (p : Progress) (t : Token) : Except Rejection Progress :=
  match followFault? p.previous t with
  | some (fault, notes) => .error ⟨fault, source, t.span, notes⟩
  | none =>
    match openAfter? p.opened t with
    | none => .error ⟨.unmatchedClose, source, t.span, []⟩
    | some opened => .ok ⟨some t, opened⟩

/-- The verdict at the end. Of several open parentheses the innermost is at fault. -/
def finish (source : String) (p : Progress) : Except Rejection Unit :=
  match p.previous with
  | none => .error ⟨.empty, source, ⟨0, byteLength source.toList⟩, []⟩
  | some last =>
    if last.kind.endsOperand then
      match p.opened with
      | [] => .ok ()
      | innermost :: outer =>
        .error ⟨.unclosed (outer.length + 1), source, innermost, outer.reverse.map .openedHere⟩
    else
      .error ⟨.invalidLast last.describe, source, last.span, []⟩

end Progress

/-- Whether the tokens form a formula; the source only goes into the rejection. -/
def check (tokens : List Token) (source : String) : Except Rejection Unit :=
  tokens.foldlM (Progress.step source) Progress.start >>= Progress.finish source

end SheetFormula
