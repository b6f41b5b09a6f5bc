import SheetFormula.Formula

/-!
# What reading a formula leaves in the log

Lexing logs its tokens and the check its success; a rejection by either of them is logged at the end.
-/

namespace SheetFormula

inductive Event where
  | lexed (kind : Kind) (text : String)
  | accepted (count : Nat)
  | rejected (rule : Rule) (span : Span)
deriving DecidableEq

namespace Event

def level : Event → String
  | .lexed .. => "TRACE"
  | .accepted _ | .rejected .. => "DEBUG"

def message : Event → String
  | .lexed .. => "lexed token"
  | .accepted _ => "formula accepted"
  | .rejected .. => "formula rejected"

/-- The values logged with the message, by name. -/
def fields : Event → List (String × String)
  | .lexed kind text => [("kind", kind.label), ("text", text)]
  | .accepted count => [("tokens", s!"{count}")]
  | .rejected rule span => [("rule", rule.describe), ("span", span.describe)]

end Event

/-! ## Results with their log -/

/-- A result, or a rejection instead, and the events on the way there. -/
structure Logged (α : Type) where
  events : List Event
  result : Except Rejection α

namespace Logged

/-- Goes on with the result, if there is one, and with the proof that it is. -/
def bind {α β : Type} (x : Logged α) (f : (a : α) → x.result = .ok a → Logged β) : Logged β :=
  match h : x.result with
  | .ok a => ⟨x.events ++ (f a h).events, (f a h).result⟩
  | .error r => ⟨x.events, .error r⟩

/-- Logs a rejection at the end. -/
def onReject {α : Type} (x : Logged α) (event : Rejection → Event) : Logged α :=
  match x.result with
  | .ok _ => x
  | .error r => ⟨x.events ++ [event r], x.result⟩

end Logged

/-- Every token is logged when it is there, whatever comes after it. -/
def tokenizeLogged (vc : VariableCase) (source : String) : Logged (List Token) :=
  ⟨(Lexing.ofSource vc source).tokens.map fun t => .lexed t.kind t.text, tokenize vc source⟩

/-- The check logs that it accepts, but not that it rejects. -/
def checkLogged (tokens : List Token) (source : String) : Logged Unit where
  events := match check tokens source with
    | .ok () => [.accepted tokens.length]
    | .error _ => []
  result := check tokens source

namespace Formula

def parseLogged (vc : VariableCase) (source : String) : Logged Formula :=
  let checked := (tokenizeLogged vc source).bind fun tokens ht =>
    (checkLogged tokens source).bind fun _ hc => ⟨[], .ok ⟨source, tokens, ⟨vc, ht⟩, hc⟩⟩
  checked.onReject fun r => .rejected r.rule r.span

def trace (vc : VariableCase) (source : String) : List Event :=
  (parseLogged vc source).events

end Formula

end SheetFormula
