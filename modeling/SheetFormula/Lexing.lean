import SheetFormula.Fault
import SheetFormula.Lexeme
import SheetFormula.Number.Canonical

/-!
# From lexemes to tokens

Numbers become canonical and variables take the chosen case. Lexing stops at the first lexeme that is
no token.
-/

namespace SheetFormula

/-- The kind and normalized text of a lexeme's token, or its fault; nothing for a blank. -/
def Lexeme.read (vc : VariableCase) (l : Lexeme) : Option (Except Fault (Kind × String)) :=
  let text := String.ofList l.text
  match l.shape with
  | .blank => none
  | .mark kind => some (.ok (kind, text))
  | .var => some (.ok (.var, vc.apply text))
  | .unknown => some (.error (.invalidToken text))
  | .number =>
    some <| match normalizeNumber text with
      | .ok canonical => .ok (.number, canonical)
      | .error .outOfRange => .error (.invalidNumber text)
      | .error .malformed => .error (.invalidToken text)

/-- The tokens before the first fault, and that fault with its place. -/
structure Lexing where
  tokens : List Token
  fault : Option (Fault × Span)
deriving DecidableEq

namespace Lexing

def ofLexemes (vc : VariableCase) (offset : Nat) : List Lexeme → Lexing
  | [] => ⟨[], none⟩
  | l :: rest =>
    let span : Span := ⟨offset, offset + byteLength l.text⟩
    match l.read vc with
    | none => ofLexemes vc span.stop rest
    | some (.error fault) => ⟨[], some (fault, span)⟩
    | some (.ok (kind, text)) =>
      let after := ofLexemes vc span.stop rest
      ⟨⟨kind, text, span⟩ :: after.tokens, after.fault⟩

def ofSource (vc : VariableCase) (source : String) : Lexing :=
  ofLexemes vc 0 (lexemes source.toList)

end Lexing

/-- The tokens of a source without fault. -/
def tokenize (vc : VariableCase) (source : String) : Except Rejection (List Token) :=
  let lexing := Lexing.ofSource vc source
  match lexing.fault with
  | none => .ok lexing.tokens
  | some (fault, span) => .error ⟨fault, source, span, []⟩

/-- The value of a number token whose text denotes one. -/
def Token.number? (t : Token) : Option Double :=
  match t.kind with
  | .number => readDouble? t.text
  | _ => none

end SheetFormula
