import SheetFormula.Formula
import SheetFormula.Wire.Varint

/-!
# Formulas as bytes

A formula travels as its normalized text: the length of its UTF-8, then the UTF-8. It is checked again
when it is read, with variables in upper case.
-/

namespace SheetFormula

def utf8Bytes (text : String) : List UInt8 :=
  text.toList.flatMap String.utf8EncodeChar

def utf8Text? (bytes : List UInt8) : Option String :=
  String.fromUTF8? bytes.toByteArray

def writeText (text : String) : List UInt8 :=
  let bytes := utf8Bytes text
  writeVarint bytes.length ++ bytes

inductive PacketFault where
  | unexpectedEnd
  | badLength
  | badText
  | rejected (rejection : Rejection)
deriving DecidableEq

/-- The text at the head of the bytes. -/
def readText (bytes : List UInt8) : Except PacketFault String :=
  match readVarint 9 bytes with
  | .error .unexpectedEnd => .error .unexpectedEnd
  | .error .tooLong => .error .badLength
  | .ok (length, rest) =>
    if rest.length < length then .error .unexpectedEnd
    else match utf8Text? (rest.take length) with
      | none => .error .badText
      | some text => .ok text

namespace Formula

def toBytes (f : Formula) : List UInt8 :=
  writeText f.normalized

/-- Reads a formula; bytes after it are ignored. -/
def ofBytes (bytes : List UInt8) : Except PacketFault Formula :=
  match readText bytes with
  | .error fault => .error fault
  | .ok text =>
    match parse .upper text with
    | .ok f => .ok f
    | .error r => .error (.rejected r)

end Formula

end SheetFormula
