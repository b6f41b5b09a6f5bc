import SheetFormula.Command.Outcome

/-! # The command -/

open SheetFormula

/-- Reads standard input to its end. -/
partial def readAll (stream : IO.FS.Stream) (bytes : ByteArray) : IO ByteArray := do
  let chunk ← stream.read 65536
  if chunk.isEmpty then return bytes else readAll stream (bytes ++ chunk)

def main (args : List String) : IO UInt32 := do
  let request := Request.parse args
  let stdin ← match request with
    | .check { formula := none, .. } => readAll (← IO.getStdin) .empty
    | _ => pure .empty
  let outcome := request.run stdin.toList
  for line in outcome.output do
    IO.println line
  for report in outcome.reports do
    for line in report do
      IO.eprintln line
  return outcome.status.toUInt32
