import SheetFormula.Check
import SheetFormula.Lexing

/-! # Formulas -/

namespace SheetFormula

/-- A source and its tokens, in one letter case or the other, which have passed the check. -/
structure Formula where
  source : String
  tokens : List Token
  lexed : ∃ vc, tokenize vc source = .ok tokens
  checked : check tokens source = .ok ()

/-! ## Sorted names -/

/-- Puts a name in its place, unless it is there. -/
def insertName (a : String) : List String → List String
  | [] => [a]
  | b :: names =>
    if a < b then a :: b :: names else if a = b then b :: names else b :: insertName a names

/-- The distinct names in ascending order of their code points. -/
def sortedNames (names : List String) : List String :=
  names.foldr insertName []

namespace Formula

/-- Reads and checks a source. -/
def parse (vc : VariableCase) (source : String) : Except Rejection Formula :=
  match ht : tokenize vc source with
  | .error r => .error r
  | .ok tokens =>
    match hc : check tokens source with
    | .error r => .error r
    | .ok () => .ok ⟨source, tokens, ⟨vc, ht⟩, hc⟩

/-- The texts of the tokens with nothing between them. -/
def normalized (f : Formula) : String :=
  String.ofList (f.tokens.flatMap fun t => t.text.toList)

def variableNames (f : Formula) : List String :=
  sortedNames ((f.tokens.filter fun t => t.kind == .var).map Token.text)

/-- Formulas are equal when their normalized texts are. -/
instance : BEq Formula :=
  ⟨fun f g => f.normalized == g.normalized⟩

/-- As many tokens, each the same as its counterpart. -/
def sameTokens (f g : Formula) : Bool :=
  f.tokens.length == g.tokens.length && (f.tokens.zip g.tokens).all fun p => p.1.sameAs p.2

end Formula

end SheetFormula
