/-!
# Byte spans of a text

Offsets count the bytes of the text's UTF-8. A span can be sliced when both ends are in order, inside
the text and between two characters.
-/

namespace SheetFormula

/-- The bytes from `start` on and before `stop`. -/
structure Span where
  start : Nat
  stop : Nat
deriving DecidableEq

def byteLength : List Char → Nat
  | [] => 0
  | c :: cs => c.utf8Size + byteLength cs

/-- What follows the first `n` bytes, unless `n` is past the end or inside a character. -/
def dropBytes? : Nat → List Char → Option (List Char)
  | 0, cs => some cs
  | _ + 1, [] => none
  | n + 1, c :: cs => if c.utf8Size ≤ n + 1 then dropBytes? (n + 1 - c.utf8Size) cs else none

/-- The first `n` bytes, unless `n` is past the end or inside a character. -/
def takeBytes? : Nat → List Char → Option (List Char)
  | 0, _ => some []
  | _ + 1, [] => none
  | n + 1, c :: cs =>
    if c.utf8Size ≤ n + 1 then (takeBytes? (n + 1 - c.utf8Size) cs).map (c :: ·) else none

namespace Span

def length (s : Span) : Nat :=
  s.stop - s.start

/-- The text under the span. -/
def slice? (s : Span) (text : String) : Option String :=
  if s.start ≤ s.stop then
    ((dropBytes? s.start text.toList).bind (takeBytes? s.length)).map String.ofList
  else
    none

/-- Written as in `Span(2..3)`. -/
def describe (s : Span) : String :=
  s!"Span({s.start}..{s.stop})"

end Span

end SheetFormula
