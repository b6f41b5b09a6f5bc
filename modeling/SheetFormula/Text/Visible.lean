/-!
# Visible text

What is left of a text without the control sequences of terminals. A sequence starts with an escape
character and is taken out as a whole; so are control characters, except for tab, line feed, form feed
and carriage return.
-/

namespace SheetFormula

/-- What the next character continues. -/
inductive Sequence where
  /-- Plain text, outside of all sequences. -/
  | text
  | escape
  /-- An escape with further characters before its last one. -/
  | intermediate
  /-- A control sequence, such as those for colours. -/
  | control
  /-- An operating system command, ended by a bell. -/
  | command
  | deviceEntry
  | deviceParameter
  | deviceIntermediate
  /-- The body of a control string, ended by the byte `0x9C`. -/
  | body
deriving DecidableEq

/-- The control characters that are shown. -/
def isBlankControl (c : Char) : Bool :=
  c == '\t' || c == '\n' || c == '\x0c' || c == '\r'

def isBetween (lo hi : Nat) (c : Char) : Bool :=
  lo ≤ c.toNat && c.toNat ≤ hi

namespace Sequence

/-- What follows `c`. An escape character starts anew, and cancel or substitute end any sequence. -/
def next (s : Sequence) (c : Char) : Sequence :=
  if c == '\x18' || c == '\x1a' then .text
  else if c == '\x1b' then .escape
  else match s with
    | .text => .text
    | .escape =>
      if isBetween 0x20 0x2F c then .intermediate
      else if !isBetween 0x30 0x7E c then .escape
      else match c with
        | '[' => .control
        | ']' => .command
        | 'P' => .deviceEntry
        | 'X' | '^' | '_' => .body
        | _ => .text
    | .intermediate => if isBetween 0x30 0x7E c then .text else .intermediate
    | .control => if isBetween 0x40 0x7E c then .text else .control
    | .command => if c == '\x07' then .text else .command
    | .deviceEntry =>
      if isBetween 0x20 0x2F c then .deviceIntermediate
      else if isBetween 0x30 0x3F c then .deviceParameter
      else if isBetween 0x40 0x7E c then .body
      else .deviceEntry
    | .deviceParameter =>
      if isBetween 0x20 0x2F c then .deviceIntermediate
      else if isBetween 0x3C 0x7E c then .body
      else .deviceParameter
    | .deviceIntermediate => if isBetween 0x30 0x7E c then .body else .deviceIntermediate
    | .body => if (String.utf8EncodeChar c).contains 0x9C then .text else .body

/-- Whether a character is shown. Blank controls are also shown inside of short sequences. -/
def shows (s : Sequence) (c : Char) : Bool :=
  match s with
  | .text => isBlankControl c || (0x20 ≤ c.toNat && c != '\x7f')
  | .escape | .intermediate | .control => isBlankControl c
  | _ => false

end Sequence

/-- The visible characters inside of `s`. What is shown goes on up to the next character that plain text
does not show; there an interrupted sequence is taken up again. -/
def visibleFrom (s : Sequence) (showing : Bool) : List Char → List Char
  | [] => []
  | c :: cs =>
    if showing then
      if Sequence.text.shows c then
        c :: visibleFrom (if c.toNat < 0x80 then s else .text) true cs
      else
        visibleFrom (s.next c) false cs
    else if s.shows c then
      c :: visibleFrom (s.next c) true cs
    else
      visibleFrom (s.next c) false cs

def visibleText (text : String) : String :=
  String.ofList (visibleFrom .text false text.toList)

end SheetFormula
