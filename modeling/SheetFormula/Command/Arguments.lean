import SheetFormula.Text.Visible

/-! # Command line arguments -/

namespace SheetFormula

structure Options where
  listTokens : Bool
  listVariables : Bool
  preserveCase : Bool
  formula : Option String
deriving DecidableEq

def Options.plain : Options :=
  ⟨false, false, false, none⟩

inductive Flag where
  | listTokens
  | listVariables
  | preserveCase
  | help
deriving DecidableEq

namespace Flag

def name : Flag → String
  | .listTokens => "--tokens"
  | .listVariables => "--variables"
  | .preserveCase => "--preserve-case"
  | .help => "--help"

def ofName? (name : String) : Option Flag :=
  [listTokens, listVariables, preserveCase, help].find? fun f => f.name = name

end Flag

/-- Why the arguments are refused. -/
inductive UsageFault where
  | unexpectedArgument (text : String)
  | unexpectedValue (flag : Flag) (value : String)
  | repeated (flag : Flag)
deriving DecidableEq

/-- Arguments are quoted without their control sequences. -/
def UsageFault.message : UsageFault → String
  | .unexpectedArgument text => s!"error: unexpected argument '{visibleText text}' found"
  | .unexpectedValue flag value =>
    s!"error: unexpected value '{visibleText value}' for '{flag.name}' found; no more were expected"
  | .repeated flag => s!"error: the argument '{flag.name}' cannot be used multiple times"

/-- What the arguments ask for. -/
inductive Request where
  | help
  | check (options : Options)
  | refuse (fault : UsageFault)
deriving DecidableEq

/-- How a single argument reads. -/
inductive Argument where
  | endOfFlags
  | flag (flag : Flag) (value : Option String)
  | unknown (text : String)
  | positional (text : String)
deriving DecidableEq

namespace Argument

/-- Splits a long flag at its first equals sign. -/
def ofLong (cs : List Char) : Argument :=
  let name := String.ofList (cs.takeWhile (· != '='))
  let value := match cs.dropWhile (· != '=') with
    | [] => none
    | _ :: v => some (String.ofList v)
  match Flag.ofName? name with
  | some f => .flag f value
  | none => .unknown name

/-- A single dash is no flag, and of a cluster of short flags only the first one counts. -/
def read (text : String) : Argument :=
  match text.toList with
  | ['-', '-'] => .endOfFlags
  | '-' :: '-' :: cs => ofLong ('-' :: '-' :: cs)
  | '-' :: 'h' :: _ => .flag .help none
  | '-' :: c :: _ => .unknown (String.ofList ['-', c])
  | _ => .positional text

end Argument

namespace Options

def has (o : Options) : Flag → Bool
  | .listTokens => o.listTokens
  | .listVariables => o.listVariables
  | .preserveCase => o.preserveCase
  | .help => false

def set (o : Options) : Flag → Options
  | .listTokens => { o with listTokens := true }
  | .listVariables => { o with listVariables := true }
  | .preserveCase => { o with preserveCase := true }
  | .help => o

/-- Only one formula can be given. -/
def withFormula (o : Options) (text : String) : Except UsageFault Options :=
  match o.formula with
  | none => .ok { o with formula := some text }
  | some _ => .error (.unexpectedArgument text)

end Options

namespace Request

/-- After the end of the flags every argument is positional. -/
def ofPositionals (o : Options) : List String → Request
  | [] => .check o
  | text :: rest =>
    match o.withFormula text with
    | .ok o => ofPositionals o rest
    | .error fault => .refuse fault

/-- Reads from the left and stops at the first fault or at a call for help. -/
def ofArguments (o : Options) : List String → Request
  | [] => .check o
  | text :: rest =>
    match Argument.read text with
    | .endOfFlags => ofPositionals o rest
    | .flag f (some value) => .refuse (.unexpectedValue f value)
    | .flag .help none => .help
    | .flag f none => if o.has f then .refuse (.repeated f) else ofArguments (o.set f) rest
    | .unknown text => .refuse (.unexpectedArgument text)
    | .positional text =>
      match o.withFormula text with
      | .ok o => ofArguments o rest
      | .error fault => .refuse fault

def parse (args : List String) : Request :=
  ofArguments .plain args

end Request

end SheetFormula
