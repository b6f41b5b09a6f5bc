/-!
# Lines and columns

A line ends after `\r\n`, `\r`, `\n`, U+000B, U+000C, U+0085, U+2028 or U+2029. A terminator at the
very end of the text starts no further line.
-/

namespace SheetFormula

def isLineEnd (c : Char) : Bool :=
  (0x0A ≤ c.toNat && c.toNat ≤ 0x0D) || c.toNat == 0x85 || c.toNat == 0x2028 || c.toNat == 0x2029

/-- Both count from 1, columns in characters. -/
structure Position where
  line : Nat
  column : Nat
deriving DecidableEq

namespace Position

def first : Position :=
  ⟨1, 1⟩

/-- The position after `c`, where `rest` follows it. -/
def after (p : Position) (c : Char) (rest : List Char) : Position :=
  if isLineEnd c && !rest.isEmpty && !(c == '\r' && rest.head? == some '\n') then
    ⟨p.line + 1, 1⟩
  else
    ⟨p.line, p.column + 1⟩

/-- The position `n` characters further on. -/
def advance (p : Position) : Nat → List Char → Position
  | n + 1, c :: cs => advance (p.after c cs) n cs
  | _, _ => p

/-- The position of a character offset. -/
def ofOffset (text : List Char) (n : Nat) : Position :=
  first.advance n text

end Position

end SheetFormula
