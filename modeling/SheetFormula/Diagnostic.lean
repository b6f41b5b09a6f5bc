import SheetFormula.Fault

/-! # Diagnostics: what a rejection has to say, whoever shows it -/

namespace SheetFormula

/-- A span of the source and what is said about it. -/
structure Label where
  span : Span
  message : String
deriving DecidableEq

structure Diagnostic where
  severity : String
  code : String
  message : String
  span : Span
  related : List Label
  help : String
deriving DecidableEq

def Rejection.diagnostic (r : Rejection) : Diagnostic where
  severity := "error"
  code := r.rule.code
  message := r.fault.message
  span := r.span
  related := r.notes.map fun n => ⟨n.span, n.message⟩
  help := r.fault.help

/-- The primary label and then the related ones. -/
def Diagnostic.labels (d : Diagnostic) : List Label :=
  ⟨d.span, d.message⟩ :: d.related

end SheetFormula
