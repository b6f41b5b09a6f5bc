import SheetFormula.Command.Arguments
import SheetFormula.Report
import SheetFormula.Text.Line
import SheetFormula.Wire.Packet

/-!
# What a run of the command prints

A run is a function of its arguments and of the bytes on standard input. Formulas are checked one by
one, and the run fails when one of them is rejected.
-/

namespace SheetFormula

structure Outcome where
  status : Nat
  output : List String
  /-- The lines of each report, the header first. -/
  reports : List (List String)
deriving DecidableEq

namespace Outcome

def empty : Outcome :=
  ⟨0, [], []⟩

/-- Two runs, the second after the first. -/
def append (a b : Outcome) : Outcome :=
  ⟨if a.status = 0 ∧ b.status = 0 then 0 else 1, a.output ++ b.output, a.reports ++ b.reports⟩

instance : Append Outcome :=
  ⟨append⟩

def headers (o : Outcome) : List String :=
  o.reports.filterMap List.head?

end Outcome

def helpLines : List String :=
  ["Validate spreadsheet formulas and print their normalized form",
    "",
    "Usage: cellform [OPTIONS] [FORMULA]",
    "",
    "Arguments:",
    "  [FORMULA]  Formula to check (if not provided, reads one formula per line from stdin)",
    "",
    "Options:",
    "      --tokens         Print the token list of each valid formula",
    "      --variables      Print the variables used by each valid formula",
    "      --preserve-case  Keep variable names as written instead of upper-casing them",
    "  -h, --help           Print help"]

/-! ## One formula -/

def padTo (n : Nat) (text : String) : String :=
  text ++ String.ofList (List.replicate (n - text.length) ' ')

def Token.listing (t : Token) : String :=
  s!"  {padTo 20 t.kind.label} {t.text}"

namespace Options

def variableCase (o : Options) : VariableCase :=
  if o.preserveCase then .preserve else .upper

/-- The lines printed for an accepted formula. -/
def block (o : Options) (f : Formula) : List String :=
  f.normalized
    :: ((if o.listTokens then f.tokens.map Token.listing else [])
      ++ (if o.listVariables then ["  variables: " ++ ", ".intercalate f.variableNames] else []))

def checkText (o : Options) (text : String) : Outcome :=
  match Formula.parse o.variableCase text with
  | .ok f => ⟨0, o.block f, []⟩
  | .error r =>
    let d := r.diagnostic
    ⟨1, [], [(d.report? text).getD [d.header]]⟩

end Options

/-! ## Whole runs -/

namespace Options

/-- Checks line after line; one that is not UTF-8 ends the run. -/
def checkLines (o : Options) : List (List UInt8) → Outcome
  | [] => .empty
  | line :: rest =>
    match utf8Text? line with
    | none => ⟨1, [], []⟩
    | some text => o.checkText text ++ o.checkLines rest

def run (o : Options) (stdin : List UInt8) : Outcome :=
  match o.formula with
  | some text => o.checkText text
  | none => o.checkLines (byteLines stdin)

end Options

def Request.run (stdin : List UInt8) : Request → Outcome
  | .help => ⟨0, helpLines, []⟩
  | .refuse fault => ⟨2, [], [textLines fault.message]⟩
  | .check options => options.run stdin

end SheetFormula
